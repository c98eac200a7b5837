import PointerSemantics.Memory.Basic

/-!
# Placing blocks

`proposeCandidates` lists the lowest free places for a block, `allocate` reserves those of a given
list that are free and takes one of them as the base.

The search for places ends because each place tried lies above the one before: a place in use sends
it past the end of what is in the way, a free place past its own end.
-/

namespace PointerSemantics

namespace Memory

/-! ## Proposals -/

/-- The highest end among the ranges that a range overlaps. -/
def blockingStop? (taken : List AddrRange) (r : AddrRange) : Option Nat :=
  ((taken.filter (·.overlaps r)).map AddrRange.stop).max?

theorem lt_blockingStop {taken : List AddrRange} {r : AddrRange} {stop : Nat}
    (h : blockingStop? taken r = some stop) : r.start < stop := by
  obtain ⟨s, hs, rfl⟩ := List.mem_map.1 (List.max?_mem h)
  have := (List.mem_filter.1 hs).2
  simp only [AddrRange.overlaps, Bool.and_eq_true, decide_eq_true_eq] at this
  exact this.2

set_option linter.unusedVariables false in
/-- Up to `max` free places of `size` bytes, from `base` upwards. -/
def placesFrom (memsz size align : Nat) (positive : 0 < size) (taken : List AddrRange)
    (max base : Nat) : List Nat :=
  if max = 0 ∨ memsz < base + size then []
  else
    match hb : blockingStop? taken ⟨base, size⟩ with
    | some stop =>
      match ha : alignUp stop align with
      | some next => placesFrom memsz size align positive taken max next
      | none => []
    | none =>
      base ::
        match ha : alignUp (base + size) align with
        | some next => placesFrom memsz size align positive taken (max - 1) next
        | none => []
termination_by memsz - base
decreasing_by
  · have := lt_blockingStop hb
    have := le_alignUp ha
    simp only at *
    omega
  · have := le_alignUp ha
    omega

/-- Up to `max` base addresses for a new block: aligned, clear of every reserved range and of each
other, the lowest first. -/
def proposeCandidates (m : Memory) (size align max : Nat) : List Nat :=
  if h : 0 < size ∧ Word.isPowerOfTwo align then
    placesFrom m.config.memsz size align h.1 m.reservedRanges max align
  else []

/-! ## Allocation -/

structure AllocRequest where
  kind : BlockKind
  size : Nat
  align : Nat
  /-- Initial contents; poison when absent -/
  init : Option (List Byte)
  /-- Proposed base addresses, the preferred first -/
  candidates : List Nat
  /-- Which of the viable candidates is the base -/
  pick : Nat

/-- The candidates that fit and overlap neither a taken range nor an earlier viable candidate. -/
def viable (m : Memory) (size align : Nat) : List AddrRange → List Nat → List Nat
  | _, [] => []
  | taken, base :: rest =>
    let r : AddrRange := ⟨base, size⟩
    if m.fits r align && r.disjointFrom taken then base :: m.viable size align (r :: taken) rest
    else m.viable size align taken rest

/-- Allocates a block under the next number. The viable candidates become its twin addresses. -/
def allocate (m : Memory) (req : AllocRequest) : Except MemError (BlockId × Memory) :=
  if req.size = 0 then .error .emptyRange
  else if !Word.isPowerOfTwo req.align then .error (.invalidAlignment req.align)
  else
    match req.init.filter (·.length ≠ req.size) with
    | some bytes => .error (.initSizeMismatch req.size bytes.length)
    | none =>
      let places := m.viable req.size req.align m.reservedRanges req.candidates
      match places, places[req.pick]? with
      | [], _ => .error (.outOfMemory req.size)
      | _, none => .error (.invalidPick req.pick places.length)
      | _, some base =>
        let block : Block :=
          { id := m.freshId, kind := req.kind, base, size := req.size, born := m.clock,
            died := none, align := req.align,
            bytes := req.init.getD (List.replicate req.size .poison),
            candidates := .ofList places }
        .ok (m.freshId, { m with
          blocks := m.blocks.insert m.freshId block
          clock := m.clock + 1
          freshId := m.freshId + 1 })

end Memory

end PointerSemantics
