import PointerSemantics.Proofs.Reachable
import PointerSemantics.Proofs.Runs

/-!
# Calls are nested

A call puts a frame on the stack, and until that frame has returned nothing below it is touched. When it
returns, the caller goes on behind the call with the returned value, and no trace of the call is left on
the stack, in the call table, or among the live blocks of the stack
(`frames_and_returned_of_nstep`).

Frames are told apart by their calls: every frame of the call and above it has a call that is not older
than the one the call was given (`Activations`). So the frame of the call itself can be the innermost only
when nothing lies above it, and only then can a return bring the stack back to its old height.
-/

namespace PointerSemantics

/-! ## The frames of a call -/

/-- The frames of call `k` and of the calls made from it, which are newer. The frame of `k` lies lowest and
returns to register `dst`. -/
inductive Activations (k : CallId) (dst : Option Reg) : List Frame → Prop
  | callee {g : Frame} (hcall : g.callId = k) (hdest : g.retDest = dst) : Activations k dst [g]
  | inner {g : Frame} {frames : List Frame} (hcall : k < g.callId) (h : Activations k dst frames) :
    Activations k dst (g :: frames)

namespace Activations

variable {k : CallId} {dst : Option Reg} {g g' : Frame} {frames : List Frame}

theorem exists_cons (h : Activations k dst frames) : ∃ g tail, frames = g :: tail := by
  cases h with
  | callee => exact ⟨_, _, rfl⟩
  | inner => exact ⟨_, _, rfl⟩

/-- The innermost frame may change but for its call and for where it returns to. -/
theorem replaceTop (h : Activations k dst (g :: frames)) (hcall : g'.callId = g.callId)
    (hdest : g'.retDest = g.retDest) : Activations k dst (g' :: frames) := by
  cases h with
  | callee hk hdst => exact .callee (hcall.trans hk) (hdest.trans hdst)
  | inner hk h => exact .inner (hcall ▸ hk) h

end Activations

namespace Config

variable {p : Program} {c d e : Config} {f : Frame} {rest below : List Frame} {dst : Option Reg}
  {callee : FunctionId} {v : Value}

/-- The state `d` is within a call of `callee` that was made in `c` and has not returned. -/
structure InCall (c : Config) (dst : Option Reg) (callee : FunctionId) (below : List Frame)
    (d : Config) : Prop where
  stack : ∃ frames, Activations c.nextCallId dst frames ∧ d.stack = frames ++ below
  older : ∀ k < c.nextCallId, d.callTable.find? k = c.callTable.find? k
  callee : d.callTable.find? c.nextCallId = some callee
  lt : c.nextCallId < d.nextCallId

/-- The innermost frame runs `callee` and is at a return of `v` to the frames below. -/
def AtReturn (p : Program) (callee : FunctionId) (v : Value) (below : List Frame) (d : Config) : Prop :=
  ∃ g fn op, d.stack = g :: below ∧ p callee = some fn ∧
    d.fetch p g = .ok (fn, .terminator (.ret op)) ∧ op.eval g.registers = .ok v

/-- The caller has taken the value and its call is gone. -/
structure Returned (c : Config) (dst : Option Reg) (v : Value) (f : Frame) (rest : List Frame)
    (d : Config) : Prop where
  stack : d.stack = f.receive dst v :: rest
  find?_table : ∀ k ≤ c.nextCallId, d.callTable.find? k =
    if k = c.nextCallId then none else c.callTable.find? k

/-! ## Steps -/

/-- At a call there is one way to go on. -/
theorem Steps.eq_of_call {fn : FunctionDef} {args : List Operand} (h : c.Steps p d)
    (hstack : c.stack = f :: rest) (hfetch : c.fetch p f = .ok (fn, .instruction (.call dst callee args))) :
    ∃ registers, d = { c with
      stack := ⟨c.nextCallId, .entry, registers, dst, []⟩ :: { f with pc := f.pc.next } :: rest
      callTable := c.callTable.insert c.nextCallId callee
      nextCallId := c.nextCallId + 1 } := by
  cases h with
  | effect hstack' hfetch' _ hcategory =>
    obtain ⟨rfl, rfl⟩ := List.cons.inj (hstack.symm.trans hstack')
    obtain ⟨-, hcode⟩ := Prod.mk.inj (Except.ok.inj (hfetch.symm.trans hfetch'))
    obtain rfl := Code.instruction.inj hcode
    exact absurd rfl hcategory
  | call hstack' hfetch' =>
    obtain ⟨rfl, rfl⟩ := List.cons.inj (hstack.symm.trans hstack')
    obtain ⟨-, hcode⟩ := Prod.mk.inj (Except.ok.inj (hfetch.symm.trans hfetch'))
    obtain ⟨rfl, rfl, -⟩ := Instruction.call.inj (Code.instruction.inj hcode)
    exact ⟨_, rfl⟩
  | jump hstack' hfetch' | ret hstack' hfetch' =>
    obtain ⟨rfl, -⟩ := List.cons.inj (hstack.symm.trans hstack')
    obtain ⟨-, hcode⟩ := Prod.mk.inj (Except.ok.inj (hfetch.symm.trans hfetch'))
    cases hcode

theorem Steps.inCall {fn : FunctionDef} {args : List Operand} (h : c.Steps p d)
    (hstack : c.stack = f :: rest) (hfetch : c.fetch p f = .ok (fn, .instruction (.call dst callee args))) :
    InCall c dst callee ({ f with pc := f.pc.next } :: rest) d := by
  obtain ⟨registers, rfl⟩ := h.eq_of_call hstack hfetch
  refine ⟨⟨[_], .callee rfl rfl, rfl⟩, fun k hk => ?_, ?_, Nat.lt_succ_self _⟩
  · rw [Table.find?_insert, if_neg (Nat.ne_of_lt hk)]
  · rw [Table.find?_insert, if_pos rfl]

/-- Within one frame of the call everything else stays. -/
theorem InCall.replaceTop {g : Frame} (h : InCall c dst callee below d) (hstack : d.stack = f :: rest)
    (he : e.stack = g :: rest) (hcall : g.callId = f.callId) (hdest : g.retDest = f.retDest)
    (htable : e.callTable = d.callTable) (hnext : e.nextCallId = d.nextCallId) :
    InCall c dst callee below e := by
  obtain ⟨frames, hframes, hd⟩ := h.stack
  obtain ⟨g₀, tail, rfl⟩ := hframes.exists_cons
  obtain ⟨rfl, rfl⟩ := List.cons.inj (hstack.symm.trans hd)
  refine ⟨⟨g :: tail, hframes.replaceTop hcall hdest, he⟩, ?_, ?_, ?_⟩
  · rw [htable]
    exact h.older
  · rw [htable]
    exact h.callee
  · rw [hnext]
    exact h.lt

/-- A step within a call stays within it, or returns from it to the frame below. -/
theorem InCall.step (h : InCall c dst callee (f :: rest) d) (hde : d.Steps p e) :
    InCall c dst callee (f :: rest) e ∨
      ∃ v, d.AtReturn p callee v (f :: rest) ∧ Returned c dst v f rest e := by
  cases hde with
  | effect hstack => exact .inl (h.replaceTop hstack rfl rfl rfl rfl rfl)
  | jump hstack => exact .inl (h.replaceTop hstack rfl rfl rfl rfl rfl)
  | @call g outer _ dst' callee' _ _ registers hstack =>
    obtain ⟨frames, hframes, hd⟩ := h.stack
    obtain ⟨g₀, tail, rfl⟩ := hframes.exists_cons
    obtain ⟨rfl, rfl⟩ := List.cons.inj (hstack.symm.trans hd)
    have hcaller : Activations c.nextCallId dst ({ g with pc := g.pc.next } :: tail) :=
      hframes.replaceTop rfl rfl
    refine .inl ⟨⟨_, .inner h.lt hcaller, rfl⟩, fun k hk => ?_, ?_, Nat.lt_succ_of_lt h.lt⟩
    · rw [Table.find?_insert, if_neg (Nat.ne_of_lt (Nat.lt_trans hk h.lt))]
      exact h.older k hk
    · rw [Table.find?_insert, if_neg (Nat.ne_of_lt h.lt)]
      exact h.callee
  | @ret g caller outer fn op v memory hstack hfetch hval =>
    obtain ⟨frames, hframes, hd⟩ := h.stack
    cases hframes with
    | callee hcall hdest =>
      obtain ⟨rfl, hbelow⟩ := List.cons.inj (hstack.symm.trans hd)
      obtain ⟨rfl, rfl⟩ := List.cons.inj hbelow
      obtain ⟨id, hid, hfn, -⟩ := fetch_eq_ok_iff.1 hfetch
      rw [hcall, h.callee] at hid
      obtain rfl := Option.some.inj hid
      refine .inr ⟨v, ⟨g, fn, op, hstack, hfn, hfetch, hval⟩, ?_, fun k hk => ?_⟩
      · rw [hdest]
      · rw [hcall, Table.find?_erase]
        split
        · rfl
        · next hne => exact h.older k (Nat.lt_of_le_of_ne hk hne)
    | @inner g₀ frames hcall hframes =>
      -- the frame that takes the value belongs to the call as well
      obtain ⟨g₁, tail, rfl⟩ := hframes.exists_cons
      obtain ⟨rfl, htail⟩ := List.cons.inj (hstack.symm.trans hd)
      obtain ⟨rfl, rfl⟩ := List.cons.inj htail
      have hcaller : Activations c.nextCallId dst (caller.receive g.retDest v :: tail) :=
        hframes.replaceTop rfl rfl
      refine .inl ⟨⟨_, hcaller, rfl⟩, fun k hk => ?_, ?_, h.lt⟩
      · rw [Table.find?_erase, if_neg (Nat.ne_of_lt (Nat.lt_trans hk hcall))]
        exact h.older k hk
      · rw [Table.find?_erase, if_neg (Nat.ne_of_lt hcall)]
        exact h.callee

theorem InCall.length_lt (h : InCall c dst callee below d) : below.length < d.stack.length := by
  obtain ⟨frames, hframes, hd⟩ := h.stack
  obtain ⟨g, tail, rfl⟩ := hframes.exists_cons
  rw [hd, List.cons_append, List.length_cons, List.length_append]
  omega

/-! ## What a call leaves behind -/

/-- After the return the call table is what it was before the call. -/
theorem Returned.callTable_eq {g : Frame} (h : Returned c dst v g rest d) (hc : c.CallsWf)
    (hd : d.CallsWf) (hstack : c.stack = f :: rest) (hcall : g.callId = f.callId) :
    d.callTable = c.callTable := by
  have hids : d.callIds = c.callIds := callIds_of_stack hstack h.stack hcall
  refine Table.ext_find? fun k => ?_
  by_cases hk : k < c.nextCallId
  · rw [h.find?_table k (Nat.le_of_lt hk), if_neg (Nat.ne_of_lt hk)]
  · -- neither state knows a call that is newer than those of its frames
    have hold : k ∉ c.callIds := fun hmem => hk (hc.lt k hmem)
    have hnone : c.callTable.find? k = none := by
      simpa using mt (hc.mem_iff k).2 hold
    have hnone' : d.callTable.find? k = none := by
      simpa using mt (hd.mem_iff k).2 (hids ▸ hold)
    rw [hnone, hnone']

/-- A block of the stack that was allocated during the call is dead after the return. -/
theorem Returned.isAlive_eq_false {g : Frame} (h : Returned c dst v g rest d) (hc : c.Owned)
    (hd : d.Owned) (hstack : c.stack = f :: rest) (hblocks : g.stackBlocks = f.stackBlocks)
    {id : BlockId} {b : Block} (hb : d.memory.get? id = some b) (hkind : b.kind = .stack)
    (hnew : c.memory.get? id = none) : b.isAlive = false := by
  -- the frames own the same blocks before and after
  have howned : d.ownedBlocks = c.ownedBlocks := by
    rw [ownedBlocks_of_stack h.stack, ownedBlocks_of_stack hstack]
    show g.stackBlocks ++ _ = _
    rw [hblocks]
  rw [Bool.eq_false_iff]
  intro halive
  have hid : id ∈ c.ownedBlocks := howned ▸ hd.mem_of_live id ⟨b, hb, hkind, halive⟩
  obtain ⟨b', hb', -⟩ := hc.live id hid
  rw [hnew] at hb'
  cases hb'

end Config

/-! ## Runs -/

section Run

open Config

variable {σ τ : Type} {p : Program} {o : Oracle σ} {o₀ : Oracle τ} {c₀ c d : Config} {s : σ} {s₀ : τ}
  {n m : Nat} {f : Frame} {rest : List Frame} {fn : FunctionDef} {dst : Option Reg}
  {callee : FunctionId} {args : List Operand}

/-- The last step of a run that can go on. -/
theorem exists_steps_of_running (h : (nstep p o (n + 1) c s).1.outcome = .running d) :
    ∃ e, (nstep p o n c s).1.outcome = .running e ∧ e.Steps p d := by
  obtain ⟨e, he, hyields⟩ := exists_yields_of_running h
  exact ⟨e, he, steps_of_yields hyields⟩

/-- As long as the stack is not back at its height, a run from a call is within the call; when it is, the
call has returned in the last step. -/
theorem inCall_or_returned_of_nstep (hstack : c.stack = f :: rest)
    (hfetch : c.fetch p f = .ok (fn, .instruction (.call dst callee args)))
    (hd : (nstep p o (n + 1) c s).1.outcome = .running d)
    (hinside : ∀ k ≤ n, 0 < k → ∀ e, (nstep p o k c s).1.outcome = .running e →
      e.stack.length ≠ c.stack.length) :
    InCall c dst callee ({ f with pc := f.pc.next } :: rest) d ∨
      ∃ e v, (nstep p o n c s).1.outcome = .running e ∧
        e.AtReturn p callee v ({ f with pc := f.pc.next } :: rest) ∧
        Returned c dst v { f with pc := f.pc.next } rest d := by
  induction n generalizing d with
  | zero =>
    obtain ⟨e, he, hed⟩ := exists_steps_of_running hd
    obtain rfl := Outcome.running.inj he
    exact .inl (hed.inCall hstack hfetch)
  | succ n ih =>
    obtain ⟨e, he, hed⟩ := exists_steps_of_running hd
    rcases ih he fun k hk => hinside k (Nat.le_succ_of_le hk) with hin | ⟨-, v, -, -, hreturned⟩
    · rcases hin.step hed with hin | ⟨v, hat, hreturned⟩
      · exact .inl hin
      · exact .inr ⟨e, v, he, hat, hreturned⟩
    · refine absurd ?_ (hinside (n + 1) (Nat.le_refl _) (Nat.succ_pos n) e he)
      rw [hreturned.stack, hstack, List.length_cons, List.length_cons]

/-- From a call on, and until the stack is back at its height, the frames of the caller and below stay as
they are but for the place of the caller. When the stack is back at its height, it is what it was before
the call but for the place of the caller and the register that took the returned value; the call table is
the same, and every block of the stack that was allocated on the way is dead. -/
theorem frames_and_returned_of_nstep {entry : FunctionId} {vals : List Value} {config : MemConfig}
    (hinitial : Config.initial p entry vals config = .ok c₀)
    (hc : (nstep p o₀ m c₀ s₀).1.outcome = .running c) (hstack : c.stack = f :: rest)
    (hfetch : c.fetch p f = .ok (fn, .instruction (.call dst callee args)))
    (hd : (nstep p o (n + 1) c s).1.outcome = .running d)
    (hinside : ∀ k ≤ n, 0 < k → ∀ e, (nstep p o k c s).1.outcome = .running e →
      e.stack.length ≠ c.stack.length) :
    (d.stack.length ≠ c.stack.length →
      ∃ inner, inner ≠ [] ∧ d.stack = inner ++ { f with pc := f.pc.next } :: rest) ∧
    (d.stack.length = c.stack.length →
      ∃ e v, (nstep p o n c s).1.outcome = .running e ∧
        e.AtReturn p callee v ({ f with pc := f.pc.next } :: rest) ∧
        d.stack = Frame.receive { f with pc := f.pc.next } dst v :: rest ∧
        d.callTable = c.callTable ∧
        ∀ id b, d.memory.get? id = some b → b.kind = .stack → c.memory.get? id = none →
          b.isAlive = false) := by
  rcases inCall_or_returned_of_nstep hstack hfetch hd hinside with hin | ⟨e, v, he, hat, hreturned⟩
  · refine ⟨fun _ => ?_, fun hlength => ?_⟩
    · obtain ⟨frames, hframes, heq⟩ := hin.stack
      obtain ⟨g, tail, rfl⟩ := hframes.exists_cons
      exact ⟨_, List.cons_ne_nil g tail, heq⟩
    · have hlt := hin.length_lt
      rw [hlength, hstack] at hlt
      exact absurd hlt (Nat.lt_irrefl _)
  · refine ⟨fun hlength => ?_, fun _ => ?_⟩
    · refine absurd ?_ hlength
      rw [hreturned.stack, hstack, List.length_cons, List.length_cons]
    · have hkeep : ∀ c d : Config, c.memory.Wf ∧ c.CallsWf ∧ c.Owned → c.Steps p d →
          d.memory.Wf ∧ d.CallsWf ∧ d.Owned :=
        fun c d h hcd => ⟨hcd.wf h.1, hcd.callsWf h.2.1, hcd.owned h.1 h.2.2⟩
      have hwf : c₀.memory.Wf := by
        obtain ⟨hvalid, -, -, -, rfl⟩ := initial_eq_ok hinitial
        exact (Memory.sound_empty hvalid).wf
      have hinv := nstep_invariant hkeep ⟨hwf, callsWf_initial hinitial, owned_initial hinitial⟩ hc
      obtain ⟨-, hcalls', howned'⟩ := nstep_invariant hkeep hinv hd
      obtain ⟨-, hcalls, howned⟩ := hinv
      refine ⟨e, v, he, hat, hreturned.stack,
        hreturned.callTable_eq hcalls hcalls' hstack rfl, fun id b hb hkind hnew => ?_⟩
      exact hreturned.isAlive_eq_false howned howned' hstack rfl hb hkind hnew

end Run

/-! ## Calls within a call -/

/-- Calls the function that calls the function with the cell, and owns a cell itself. -/
def outerFunction : FunctionDef where
  name := "outer"
  params := [(0, .int 8)]
  retTy := .int 8
  blocks :=
    [{ label := "entry"
       phis := []
       instructions := [.alloca 1 (.int 8) (.const (.int 8 1)), .call (some 2) 0 [.reg 0]]
       terminator := .ret (.reg 2) }]

def nestedProgram : Program
  | 2 => some outerFunction
  | id => cellProgram id

def nestedStart : Config :=
  match Config.initial nestedProgram 2 [.num 8 5] cellConfig with
  | .ok c => c
  | .error _ => default

/-- The state before the outermost call. -/
def nestedCalling : Config :=
  (nstep nestedProgram .firstFit 1 nestedStart ()).1.outcome.state?.getD default

/-- The state after the outermost call has returned. -/
def nestedReturned : Config :=
  (nstep nestedProgram .firstFit 9 nestedCalling ()).1.outcome.state?.getD default

/-- Two calls deep a cell was allocated by each, and when both have returned the first function has its
value and owns the only live cell. -/
theorem nested_frames_and_returned :
    (nestedReturned.memory.blocks.values.map (·.isAlive)) = [true, false, false] ∧
      nestedReturned.stack.map (·.registers.find? 2) = [some (.num 8 6)] ∧
      nestedReturned.callTable = nestedCalling.callTable ∧
      ∀ id b, nestedReturned.memory.get? id = some b → b.kind = .stack →
        nestedCalling.memory.get? id = none → b.isAlive = false := by
  have hinitial : Config.initial nestedProgram 2 [.num 8 5] cellConfig = .ok nestedStart := rfl
  have hcalling : (nstep nestedProgram .firstFit 1 nestedStart ()).1.outcome =
      .running nestedCalling := by decide +kernel
  have hreturned : (nstep nestedProgram .firstFit (8 + 1) nestedCalling ()).1.outcome =
      .running nestedReturned := by decide +kernel
  have hheights : ∀ k ≤ 8, 0 < k →
      (nstep nestedProgram .firstFit k nestedCalling ()).1.outcome.state?.map (·.stack.length) ≠
        some nestedCalling.stack.length := by decide +kernel
  have hinside : ∀ k ≤ 8, 0 < k → ∀ e,
      (nstep nestedProgram .firstFit k nestedCalling ()).1.outcome = .running e →
        e.stack.length ≠ nestedCalling.stack.length := by
    intro k hk hpos e he hlength
    have hne := hheights k hk hpos
    rw [he] at hne
    exact hne (congrArg some hlength)
  have hstack : nestedCalling.stack = nestedCalling.stack.headD default :: [] := by decide +kernel
  have hfetch : nestedCalling.fetch nestedProgram (nestedCalling.stack.headD default) =
      .ok (outerFunction, .instruction (.call (some 2) 0 [.reg 0])) := by decide +kernel
  have hlength : nestedReturned.stack.length = nestedCalling.stack.length := by decide +kernel
  obtain ⟨-, v, -, -, -, htable, hdead⟩ :=
    (frames_and_returned_of_nstep hinitial hcalling hstack hfetch hreturned hinside).2 hlength
  exact ⟨by decide +kernel, by decide +kernel, htable, hdead⟩

end PointerSemantics
