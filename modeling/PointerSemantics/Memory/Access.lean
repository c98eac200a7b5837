import PointerSemantics.Memory.Basic

/-!
# Reading, writing and releasing blocks
-/

namespace PointerSemantics

namespace Memory

/-- A block that must be alive. -/
def live (m : Memory) (id : BlockId) : Except MemError Block :=
  match m.get? id with
  | none => .error (.noSuchBlock id)
  | some b => if b.isAlive then .ok b else .error (.deadBlock id)

theorem live_eq_ok_iff {m : Memory} {id : BlockId} {b : Block} :
    m.live id = .ok b ↔ m.get? id = some b ∧ b.isAlive = true := by
  unfold live
  cases h : m.get? id with
  | none => simp
  | some c =>
    by_cases hc : c.isAlive = true
    · simp only [hc, if_true, Except.ok.injEq, Option.some.injEq]
      exact ⟨fun e => ⟨e, e ▸ hc⟩, fun e => e.1⟩
    · simp only [hc, if_false, Option.some.injEq, reduceCtorEq, false_iff, not_and]
      exact fun e => e ▸ hc

/-- Releases a live block; its record stays. -/
def free (m : Memory) (id : BlockId) : Except MemError Memory := do
  let b ← m.live id
  return { m with
    blocks := m.blocks.insert id { b with died := some m.clock }
    clock := m.clock + 1 }

/-- A release changes one block and the clock. -/
theorem free_eq_ok_iff {m m' : Memory} {id : BlockId} : m.free id = .ok m' ↔
    ∃ b, m.get? id = some b ∧ b.isAlive = true ∧
      m' = { m with
        blocks := m.blocks.insert id { b with died := some m.clock }, clock := m.clock + 1 } := by
  unfold free
  cases h : m.live id with
  | error e =>
    simp only [bind, Except.bind, reduceCtorEq, false_iff, not_exists]
    intro b hb
    rw [live_eq_ok_iff.2 ⟨hb.1, hb.2.1⟩] at h
    simp at h
  | ok b =>
    have hb := live_eq_ok_iff.1 h
    simp only [bind, Except.bind, pure, Except.pure, Except.ok.injEq, hb.1, Option.some.injEq]
    exact ⟨fun e => ⟨b, rfl, hb.2, e.symm⟩, fun ⟨c, hc, _, e⟩ => hc ▸ e.symm⟩

/-- The `len` bytes of a live block from an offset on. -/
def read (m : Memory) (id : BlockId) (offset len : Nat) : Except MemError (List Byte) := do
  let b ← m.live id
  if b.accessInBounds offset len then return (b.bytes.drop offset).take len
  else .error (.outOfBounds id offset len b.size)

/-- `old` with the bytes from `offset` on replaced by `new`. -/
def overwrite (old : List Byte) (offset : Nat) (new : List Byte) : List Byte :=
  old.take offset ++ new ++ old.drop (offset + new.length)

/-- Replaces the bytes of a live block from an offset on. -/
def write (m : Memory) (id : BlockId) (offset : Nat) (bytes : List Byte) :
    Except MemError Memory := do
  let b ← m.live id
  if b.accessInBounds offset bytes.length then
    return { m with
      blocks := m.blocks.insert id { b with bytes := overwrite b.bytes offset bytes } }
  else .error (.outOfBounds id offset bytes.length b.size)

/-- The address of an offset in a block, alive or dead; addresses wrap around. -/
def addressOf? (m : Memory) (id : BlockId) (offset : Nat) : Option Nat :=
  (m.get? id).map fun b => (b.base + offset) % Word.count % m.config.memsz

/-- The live block that occupies the `len` addresses from `addr` on, at least that one address. -/
def liveBlockContaining? (m : Memory) (addr len : Nat) : Option BlockId :=
  (m.liveBlocks.find? fun b => b.range.contains addr (max len 1)).map (·.id)

end Memory

end PointerSemantics
