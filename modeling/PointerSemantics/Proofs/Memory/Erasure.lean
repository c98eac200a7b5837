import PointerSemantics.Proofs.Memory.Operations

/-!
# Forgetting times and bases

An `Erasure` says what to forget of a memory: the clock with the times in blocks, or the bases of
blocks. Operations on memory do not look at times at all, and at bases only where they turn a block
into an address or an address into a block; so what they do to the erased memory is, erased, what they
do to the memory itself.

The equations have the form `(f (m.erase e)).map erase = (f m).map erase`: an operation on erased memory
ticks the erased clock, which erasing once more hides.
-/

namespace PointerSemantics

/-! ## Images of tables -/

namespace Table

variable {α β γ : Type}

/-- The table with every value replaced. -/
def map (f : α → β) (t : Table α) : Table β :=
  ⟨t.entries.map fun e => (e.1, f e.2), List.pairwise_map.2 t.sorted⟩

@[simp] theorem find?_map (f : α → β) (t : Table α) (k : Nat) :
    (t.map f).find? k = (t.find? k).map f := by
  have hlookup : ∀ es : List (Nat × α),
      lookupEntry k (es.map fun e => (e.1, f e.2)) = (lookupEntry k es).map f := by
    intro es
    induction es with
    | nil => rfl
    | cons e rest ih =>
      rw [List.map_cons, lookupEntry, lookupEntry, ih]
      split <;> rfl
  exact hlookup t.entries

theorem map_insert (f : α → β) (t : Table α) (k : Nat) (v : α) :
    (t.insert k v).map f = (t.map f).insert k (f v) := by
  refine ext_find? fun i => ?_
  rw [find?_map, find?_insert, find?_insert, find?_map]
  split <;> rfl

theorem map_map (f : α → β) (g : β → γ) (t : Table α) :
    (t.map f).map g = t.map fun a => g (f a) := by
  refine ext_find? fun i => ?_
  rw [find?_map, find?_map, find?_map, Option.map_map]
  rfl

theorem values_map (f : α → β) (t : Table α) : (t.map f).values = t.values.map f := by
  unfold values map
  rw [List.map_map, List.map_map]
  rfl

theorem size_map (f : α → β) (t : Table α) : (t.map f).size = t.size := List.length_map _

end Table

/-! ## Erasures -/

/-- What to forget of a memory. Forgetting twice forgets no more, and a tick of the clock is forgotten
with the clock. -/
structure Erasure where
  tick : Tick → Tick
  base : Nat → Nat
  tick_tick : ∀ t, tick (tick t) = tick t
  tick_succ : ∀ t, tick (tick t + 1) = tick (t + 1)
  base_base : ∀ a, base (base a) = base a

namespace Erasure

/-- Forgets the clock and the times of allocation and release. -/
def times : Erasure := ⟨fun _ => 0, id, fun _ => rfl, fun _ => rfl, fun _ => rfl⟩

/-- Forgets where blocks lie. -/
def bases : Erasure := ⟨id, fun _ => 0, fun _ => rfl, fun _ => rfl, fun _ => rfl⟩

/-- Bases are not forgotten. -/
def KeepsBases (e : Erasure) : Prop := ∀ a, e.base a = a

theorem keepsBases_times : times.KeepsBases := fun _ => rfl

end Erasure

def Block.erase (e : Erasure) (b : Block) : Block :=
  { b with base := e.base b.base, born := e.tick b.born, died := b.died.map e.tick }

namespace Block

variable {e : Erasure} {b : Block}

@[simp] theorem isAlive_erase : (b.erase e).isAlive = b.isAlive := by
  unfold isAlive erase
  cases b.died <;> rfl

@[simp] theorem kind_erase : (b.erase e).kind = b.kind := rfl

@[simp] theorem inBounds_erase {offset : Nat} : (b.erase e).inBounds offset = b.inBounds offset := rfl

@[simp] theorem accessInBounds_erase {offset len : Nat} :
    (b.erase e).accessInBounds offset len = b.accessInBounds offset len := rfl

@[simp] theorem reservedRanges_erase : (b.erase e).reservedRanges = b.reservedRanges := rfl

@[simp] theorem erase_erase : (b.erase e).erase e = b.erase e := by
  unfold erase
  simp only [e.base_base, e.tick_tick, Option.map_map]
  congr 2
  funext t
  exact e.tick_tick t

theorem range_erase (he : e.KeepsBases) : (b.erase e).range = b.range := by
  unfold range erase
  rw [he]

end Block

namespace Memory

variable {m : Memory} {e : Erasure} {id : BlockId}

def erase (e : Erasure) (m : Memory) : Memory :=
  { m with blocks := m.blocks.map (Block.erase e), clock := e.tick m.clock }

@[simp] theorem config_erase : (m.erase e).config = m.config := rfl

@[simp] theorem get?_erase : (m.erase e).get? id = (m.get? id).map (Block.erase e) :=
  Table.find?_map _ _ _

@[simp] theorem erase_erase : (m.erase e).erase e = m.erase e := by
  unfold erase
  simp only [Table.map_map, Block.erase_erase, e.tick_tick]

theorem liveBlocks_erase : (m.erase e).liveBlocks = m.liveBlocks.map (Block.erase e) := by
  unfold liveBlocks erase
  rw [Table.values_map, List.filter_map]
  congr 2
  funext b
  exact Block.isAlive_erase

@[simp] theorem reservedRanges_erase : (m.erase e).reservedRanges = m.reservedRanges := by
  unfold reservedRanges
  rw [liveBlocks_erase, List.flatMap_map]
  rfl

/-! ## Operations -/

theorem live_erase : (m.erase e).live id = (m.live id).map (Block.erase e) := by
  unfold live
  rw [get?_erase]
  cases m.get? id with
  | none => rfl
  | some b =>
    simp only [Option.map_some, Block.isAlive_erase]
    split <;> rfl

theorem free_erase :
    ((m.erase e).free id).map (erase e) = (m.free id).map (erase e) := by
  unfold free
  rw [live_erase]
  cases m.live id with
  | error h => rfl
  | ok b =>
    simp only [Except.map, bind, Except.bind, pure, Except.pure, erase, Table.map_insert,
      Table.map_map, e.tick_succ, Block.erase_erase]
    simp only [Block.erase, Option.map_some, e.base_base, e.tick_tick]
    rfl

theorem read_erase {offset len : Nat} : (m.erase e).read id offset len = m.read id offset len := by
  unfold read
  rw [live_erase]
  cases m.live id <;> rfl

theorem write_erase {offset : Nat} {bytes : List Byte} :
    (m.erase e).write id offset bytes = (m.write id offset bytes).map (erase e) := by
  unfold write
  rw [live_erase]
  cases m.live id with
  | error h => rfl
  | ok b =>
    simp only [Except.map, bind, Except.bind, Block.accessInBounds_erase]
    by_cases hin : b.accessInBounds offset bytes.length = true
    · simp only [hin, if_true, pure, Except.pure, erase, Table.map_insert]
      rfl
    · simp only [hin, if_false, Bool.false_eq_true]
      rfl

theorem allocate_erase {req : AllocRequest} :
    ((m.erase e).allocate req).map (fun x => (x.1, x.2.erase e)) =
      (m.allocate req).map fun x => (x.1, x.2.erase e) := by
  unfold allocate
  simp only [viable_congr (config_erase (m := m) (e := e)), reservedRanges_erase]
  split
  · rfl
  · split
    · rfl
    · split
      · rfl
      · split
        · rfl
        · rfl
        · simp only [Except.map, erase, Table.map_insert, Table.map_map, e.tick_succ,
            Block.erase_erase]
          simp only [Block.erase, e.tick_tick]
          rfl

theorem candidatesFor_erase {size : Option Nat} :
    (m.erase e).candidatesFor size = m.candidatesFor size :=
  candidatesFor_congr config_erase reservedRanges_erase size

end Memory

end PointerSemantics
