import PointerSemantics.Proofs.Frames

/-!
# What the check of a state decides

`Config.WellFormed` says in the look-up view what `check` looks at frame by frame and entry by entry
(`check_eq_ok_iff`). It is the conjunction of the invariants of states with the well-formedness of the
numbers in registers, which depends on the program's constants.
-/

namespace PointerSemantics

theorem Table.find?_entries_eq_none_iff {α : Type} {t : Table α} (bad : α → Bool) :
    (t.entries.find? fun e => bad e.2) = none ↔ ∀ k v, t.find? k = some v → bad v = false := by
  rw [List.find?_eq_none]
  constructor
  · intro h k v hv
    simpa using h (k, v) ((t.find?_eq_some_iff k v).1 hv)
  · rintro h ⟨k, v⟩ hv
    simpa using h k v ((t.find?_eq_some_iff k v).2 hv)

@[simp] theorem ConfigError.throw_ne_ok {α : Type} {e : ConfigError} {a : α} :
    (throw e : Except ConfigError α) ≠ .ok a := nofun

/-- A check goes on unless it refuses. -/
theorem ConfigError.refuse_eq_ok_iff {c : Prop} [Decidable c] {e : ConfigError}
    {next : Unit → Except ConfigError Unit} :
    (if c then (throw e : Except ConfigError Unit) >>= next else next ()) = .ok () ↔
      ¬c ∧ next () = .ok () := by
  split
  · next h => simp [h, throw, throwThe, MonadExceptOf.throw, bind, Except.bind]
  · next h => simp [h]

namespace Config

variable {p : Program} {c : Config} {f : Frame}

/-! ## Frames -/

/-- What is checked of one frame by itself. -/
structure FrameWf (p : Program) (c : Config) (f : Frame) : Prop where
  lt : f.callId < c.nextCallId
  code : c.AtCode p f
  registers : ∀ r v, f.registers.find? r = some v → c.memory.valueWf v = true
  blocks : ∀ id ∈ f.stackBlocks, c.memory.LiveOnStack id

theorem find?_registers_eq_none_iff :
    (f.registers.entries.find? fun e => !c.memory.valueWf e.2) = none ↔
      ∀ r v, f.registers.find? r = some v → c.memory.valueWf v = true := by
  rw [Table.find?_entries_eq_none_iff fun v => !c.memory.valueWf v]
  simp

theorem find?_stackBlocks_eq_none_iff :
    (f.stackBlocks.find? fun b => !ownsAsStack c.memory b) = none ↔
      ∀ id ∈ f.stackBlocks, c.memory.LiveOnStack id := by
  simp [List.find?_eq_none, ownsAsStack_iff]

theorem checkFrame_eq_ok_iff {outer : List CallId} :
    c.checkFrame p outer f = .ok () ↔ f.callId ∉ outer ∧ c.FrameWf p f := by
  unfold checkFrame
  simp only [ConfigError.refuse_eq_ok_iff, List.contains_iff_mem, Nat.not_le]
  constructor
  · rintro ⟨houter, hlt, h⟩
    split at h
    · simp at h
    · next id hid =>
      split at h
      · simp at h
      · next fn hfn =>
        rw [ConfigError.refuse_eq_ok_iff] at h
        obtain ⟨hpc, h⟩ := h
        split at h
        · simp at h
        · next hregisters =>
          split at h
          · simp at h
          · next hblocks =>
            exact ⟨houter, hlt, ⟨id, fn, hid, hfn, by simpa using hpc⟩,
              find?_registers_eq_none_iff.1 hregisters, find?_stackBlocks_eq_none_iff.1 hblocks⟩
  · rintro ⟨houter, hlt, ⟨id, fn, hid, hfn, hpc⟩, hregisters, hblocks⟩
    refine ⟨houter, hlt, ?_⟩
    rw [hid]
    simp only [hfn, hpc, find?_registers_eq_none_iff.2 hregisters,
      find?_stackBlocks_eq_none_iff.2 hblocks]
    rfl

theorem checkFrames_eq_ok_iff {outer : List CallId} {frames : List Frame} :
    c.checkFrames p outer frames = .ok () ↔ (frames.map (·.callId)).Nodup ∧
      (∀ f ∈ frames, f.callId ∉ outer) ∧ ∀ f ∈ frames, c.FrameWf p f := by
  induction frames generalizing outer with
  | nil => simp [checkFrames]
  | cons f rest ih =>
    have hbind : c.checkFrames p outer (f :: rest) = .ok () ↔
        c.checkFrame p outer f = .ok () ∧ c.checkFrames p (f.callId :: outer) rest = .ok () := by
      rw [checkFrames]
      cases c.checkFrame p outer f <;> simp [bind, Except.bind]
    rw [hbind, checkFrame_eq_ok_iff, ih, List.map_cons, List.nodup_cons, List.forall_mem_cons,
      List.forall_mem_cons]
    simp only [List.mem_cons, not_or, List.mem_map, not_exists, not_and]
    constructor
    · rintro ⟨⟨houter, hf⟩, hnodup, hrest, hwf⟩
      exact ⟨⟨fun g hg heq => (hrest g hg).1 heq, hnodup⟩, ⟨houter, fun g hg => (hrest g hg).2⟩,
        hf, hwf⟩
    · rintro ⟨⟨hne, hnodup⟩, ⟨houter, hrest⟩, hf, hwf⟩
      exact ⟨⟨houter, hf⟩, hnodup, fun g hg => ⟨fun heq => hne g hg heq, hrest g hg⟩, hwf⟩

/-! ## States -/

/-- What is checked of a state. -/
structure WellFormed (p : Program) (c : Config) : Prop where
  memory : c.memory.Wf
  stack : c.stack ≠ []
  calls : c.CallsWf
  frames : ∀ f ∈ c.stack, c.FrameWf p f
  stored : ∀ id b, c.memory.get? id = some b → ∀ byte ∈ b.bytes, ∀ bit ∈ byte.toList,
    c.memory.bitWf bit = true

theorem callTableMatches_iff : c.callTableMatches = true ↔
    ∀ k, k ∈ c.callIds ↔ (c.callTable.find? k).isSome = true := by
  have hkeys : ∀ k, k ∈ c.callTable.keys ↔ (c.callTable.find? k).isSome = true := by
    intro k
    rw [Table.mem_keys_iff, Option.isSome_iff_exists]
  unfold callTableMatches
  rw [Bool.and_eq_true, List.all_eq_true, List.all_eq_true]
  simp only [List.contains_iff_mem, ← hkeys]
  constructor
  · exact fun h k => ⟨h.2 k, h.1 k⟩
  · exact fun h => ⟨fun k => (h k).2, fun k => (h k).1⟩

theorem badBlock?_eq_none_iff {m : Memory} : badBlock? m = none ↔
    ∀ id b, m.get? id = some b → ∀ byte ∈ b.bytes, ∀ bit ∈ byte.toList, m.bitWf bit = true := by
  unfold badBlock?
  rw [List.find?_eq_none]
  constructor
  · intro h id b hb byte hbyte bit hbit
    have := h b (Memory.mem_values_iff.2 ⟨id, hb⟩)
    simp only [List.any_eq_true, not_exists, not_and, Bool.not_eq_true'] at this
    simpa using this byte hbyte bit hbit
  · intro h b hb
    obtain ⟨id, hid⟩ := Memory.mem_values_iff.1 hb
    simp only [List.any_eq_true, not_exists, not_and, Bool.not_eq_true', Bool.not_eq_false]
    exact h id b hid

theorem wellFormed_iff : c.WellFormed p ↔ c.memory.Wf ∧ c.stack ≠ [] ∧
    (c.checkFrames p [] c.stack.reverse = .ok ()) ∧ c.callTableMatches = true ∧
      badBlock? c.memory = none := by
  rw [checkFrames_eq_ok_iff, callTableMatches_iff, badBlock?_eq_none_iff, List.map_reverse,
    List.nodup_reverse]
  simp only [List.mem_reverse, List.not_mem_nil, not_false_eq_true, implies_true, true_and]
  constructor
  · rintro ⟨hmemory, hstack, hcalls, hframes, hstored⟩
    exact ⟨hmemory, hstack, ⟨hcalls.nodup, hframes⟩, hcalls.mem_iff, hstored⟩
  · rintro ⟨hmemory, hstack, ⟨hnodup, hframes⟩, htable, hstored⟩
    refine ⟨hmemory, hstack, ⟨hnodup, fun k hk => ?_, htable⟩, hframes, hstored⟩
    obtain ⟨f, hf, rfl⟩ := List.mem_map.1 hk
    exact (hframes f hf).lt

/-- The check succeeds on the well-formed states and on no others. -/
theorem check_eq_ok_iff : c.check p = .ok () ↔ c.WellFormed p := by
  rw [wellFormed_iff, ← Memory.checkInvariants_eq_ok_iff]
  unfold check
  cases c.memory.checkInvariants with
  | error e => simp
  | ok u =>
    simp only [ConfigError.refuse_eq_ok_iff, List.isEmpty_iff]
    cases c.checkFrames p [] c.stack.reverse with
    | error e => simp [bind, Except.bind]
    | ok u =>
      cases c.callTableMatches with
      | false => simp [bind, Except.bind, throw, throwThe, MonadExceptOf.throw]
      | true =>
        cases badBlock? c.memory with
        | some b => simp [bind, Except.bind]
        | none => simp [bind, Except.bind, pure, Except.pure]

/-- Pointers in registers are well-formed. -/
theorem WellFormed.pointsWell (h : c.WellFormed p) (hf : f ∈ c.stack) {r : Reg} {v : Value}
    (hv : f.registers.find? r = some v) : c.memory.PointsWell v :=
  (Memory.valueWf_iff.1 ((h.frames f hf).registers r v hv)).1

end Config

end PointerSemantics
