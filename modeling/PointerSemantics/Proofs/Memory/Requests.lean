import PointerSemantics.Proofs.Memory.Access

/-!
# Memories under any requests

Whoever uses a memory may ask it for anything: candidates that are misaligned, overlap each other or
what is in use or lie at the end of the address space, picks beyond them, blocks that were released
or never existed, writes beyond a block. Some requests are refused, and memory stays as it is.
`serve` and `serveAll` answer requests of all kinds in any order.

A memory that starts out empty keeps the invariant under all of them, the ranges that live blocks
reserve never share an address, and no two allocations get the same number (`serveAll_of_new`).
-/

namespace PointerSemantics

namespace Memory

/-- What may be asked of a memory. -/
inductive Request where
  | allocate (req : AllocRequest)
  | free (id : BlockId)
  | write (id : BlockId) (offset : Nat) (bytes : List Byte)

/-- The memory after a request, and the block that was allocated. Nothing changes if it is refused.
-/
def serve (m : Memory) : Request → Memory × Option BlockId
  | .allocate req =>
    match m.allocate req with
    | .ok (id, m') => (m', some id)
    | .error _ => (m, none)
  | .free id =>
    match m.free id with
    | .ok m' => (m', none)
    | .error _ => (m, none)
  | .write id offset bytes =>
    match m.write id offset bytes with
    | .ok m' => (m', none)
    | .error _ => (m, none)

/-- The memory after requests, and the blocks that were allocated, the first one first. -/
def serveAll (m : Memory) : List Request → Memory × List BlockId
  | [] => (m, [])
  | r :: rest =>
    let later := (m.serve r).1.serveAll rest
    (later.1, (m.serve r).2.toList ++ later.2)

variable {m : Memory} {id : BlockId}

/-! ## One request -/

/-- A request changes nothing, or it is one of the three operations and succeeds. -/
theorem serve_cases (m : Memory) (r : Request) : m.serve r = (m, none) ∨
    (∃ req id m', r = .allocate req ∧ m.allocate req = .ok (id, m') ∧ m.serve r = (m', some id)) ∨
    (∃ id m', m.free id = .ok m' ∧ m.serve r = (m', none)) ∨
    ∃ id offset bytes m', m.write id offset bytes = .ok m' ∧ m.serve r = (m', none) := by
  cases r with
  | allocate req =>
    cases h : m.allocate req with
    | error e => exact .inl (by simp only [serve, h])
    | ok made => exact .inr (.inl ⟨req, made.1, made.2, rfl, h, by simp only [serve, h]⟩)
  | free id =>
    cases h : m.free id with
    | error e => exact .inl (by simp only [serve, h])
    | ok m' => exact .inr (.inr (.inl ⟨id, m', h, by simp only [serve, h]⟩))
  | write id offset bytes =>
    cases h : m.write id offset bytes with
    | error e => exact .inl (by simp only [serve, h])
    | ok m' => exact .inr (.inr (.inr ⟨id, offset, bytes, m', h, by simp only [serve, h]⟩))

theorem Wf.serve (hm : m.Wf) (r : Request) : (m.serve r).1.Wf := by
  rcases m.serve_cases r with
    h | ⟨req, id, m', -, ha, h⟩ | ⟨id, m', hf, h⟩ | ⟨id, offset, bytes, m', hw, h⟩
  · rw [h]
    exact hm
  · rw [h]
    exact hm.allocate ha
  · rw [h]
    exact hm.free hf
  · rw [h]
    exact hm.write hw

theorem Wf.persists_serve (hm : m.Wf) (r : Request) : m.Persists (m.serve r).1 := by
  rcases m.serve_cases r with
    h | ⟨req, id, m', -, ha, h⟩ | ⟨id, m', hf, h⟩ | ⟨id, offset, bytes, m', hw, h⟩
  · rw [h]
    exact .refl m
  · rw [h]
    exact hm.persists_allocate ha
  · rw [h]
    exact persists_free hf
  · rw [h]
    exact persists_write hw

/-- A block gets the next number, and the number after it is the next one. -/
theorem serve_eq_some {r : Request} (h : (m.serve r).2 = some id) :
    id = m.freshId ∧ (m.serve r).1.freshId = m.freshId + 1 := by
  rcases m.serve_cases r with hs | ⟨req, id', m', -, ha, hs⟩ | ⟨-, m', -, hs⟩ | ⟨-, -, -, m', -, hs⟩
  · simp [hs] at h
  · rw [hs] at h ⊢
    obtain rfl := Option.some.inj h
    obtain ⟨-, -, -, base, -, rfl, rfl⟩ := allocate_eq_ok_iff.1 ha
    exact ⟨rfl, rfl⟩
  · simp [hs] at h
  · simp [hs] at h

/-! ## All requests -/

theorem Wf.serveAll (hm : m.Wf) (requests : List Request) : (m.serveAll requests).1.Wf := by
  induction requests generalizing m with
  | nil => exact hm
  | cons r rest ih => exact ih (hm.serve r)

theorem Wf.persists_serveAll (hm : m.Wf) (requests : List Request) :
    m.Persists (m.serveAll requests).1 := by
  induction requests generalizing m with
  | nil => exact .refl m
  | cons r rest ih => exact (hm.persists_serve r).trans (ih (hm.serve r))

/-- The numbers given from now on are new. -/
theorem Wf.freshId_le_of_mem_serveAll (hm : m.Wf) {requests : List Request}
    (h : id ∈ (m.serveAll requests).2) : m.freshId ≤ id := by
  induction requests generalizing m with
  | nil => simp [Memory.serveAll] at h
  | cons r rest ih =>
    rcases List.mem_append.1 h with h | h
    · rw [Option.mem_toList] at h
      exact Nat.le_of_eq (serve_eq_some h).1.symm
    · exact Nat.le_trans (hm.persists_serve r).freshId_le (ih (hm.serve r) h)

theorem Wf.nodup_serveAll (hm : m.Wf) (requests : List Request) :
    (m.serveAll requests).2.Nodup := by
  induction requests generalizing m with
  | nil => exact List.nodup_nil
  | cons r rest ih =>
    have hrest := ih (hm.serve r)
    show ((m.serve r).2.toList ++ ((m.serve r).1.serveAll rest).2).Nodup
    cases hmade : (m.serve r).2 with
    | none => simpa using hrest
    | some id =>
      obtain ⟨hid, hnext⟩ := serve_eq_some hmade
      refine List.nodup_cons.2 ⟨fun hmem => ?_, hrest⟩
      have hle := (hm.serve r).freshId_le_of_mem_serveAll hmem
      rw [hnext, hid] at hle
      exact Nat.not_succ_le_self _ hle

/-! ## New memories -/

theorem new_eq_ok_iff {config : MemConfig} : new config = .ok m ↔
    config.validate = .ok () ∧ m = empty config := by
  unfold new
  cases config.validate with
  | error e => simp [bind, Except.bind]
  | ok u => simp [bind, Except.bind, pure, Except.pure, eq_comm]

/-- Whatever is asked of a new memory, after each request the invariant holds, reserved ranges are
not empty, lie inside the address space and share no address, and the numbers given so far differ.
-/
theorem serveAll_of_new {config : MemConfig} (h : new config = .ok m) (requests : List Request) :
    (m.serveAll requests).1.checkInvariants = .ok () ∧
      ((m.serveAll requests).1.reservedRanges.Pairwise fun r s =>
        r.start + r.len ≤ s.start ∨ s.start + s.len ≤ r.start) ∧
      (∀ r ∈ (m.serveAll requests).1.reservedRanges,
        0 < r.len ∧ 0 < r.start ∧ r.start + r.len ≤ config.memsz) ∧
      (m.serveAll requests).2.Nodup := by
  obtain ⟨hvalid, rfl⟩ := new_eq_ok_iff.1 h
  have hempty := wf_empty config
  have hwf := hempty.serveAll requests
  have hconfig : ((empty config).serveAll requests).1.config = config :=
    (hempty.persists_serveAll requests).config_eq
  have husable : ((empty config).serveAll requests).1.Usable := ⟨hwf, by rw [hconfig, hvalid]⟩
  refine ⟨checkInvariants_eq_ok_iff.2 hwf, ?_, ?_, hempty.nodup_serveAll requests⟩
  · refine (pairwise_reservedRanges_iff.2 hwf.apart).imp_of_mem ?_
    intro r s hr hs hapart
    exact (husable.apart_iff hr hs).1 hapart
  · intro r hr
    have hbounds := husable.bounds_of_mem_reservedRanges hr
    rwa [hconfig] at hbounds

/-- Requests that a memory of 64 bytes serves and refuses in turn. -/
def mixedRequests : List Request :=
  [ -- the second place overlaps the first, the third is misaligned, the last is at the very end
    .allocate ⟨.heap, 8, 8, none, [8, 8, 12, 24, Word.max - 7], 1⟩,
    -- in use
    .allocate ⟨.stack, 4, 4, none, [8, 12, 28], 0⟩,
    .write 0 6 [.poison, .poison, .poison],
    .free 0,
    .free 0,
    .write 0 0 [.poison],
    -- free again
    .allocate ⟨.stack, 16, 8, none, [0, 24, 32, 48], 1⟩,
    .allocate ⟨.heap, 8, 8, none, [8, 16], 2⟩,
    .allocate ⟨.heap, 3, 1, none, [63, 60, 41], 0⟩ ]

theorem serveAll_mixedRequests :
    new ⟨64, 8, 2⟩ = .ok (empty ⟨64, 8, 2⟩) ∧
      ((empty ⟨64, 8, 2⟩).serveAll mixedRequests).2 = [0, 1, 2] ∧
      ((empty ⟨64, 8, 2⟩).serveAll mixedRequests).1.reservedRanges = [⟨24, 16⟩, ⟨48, 16⟩, ⟨41, 3⟩] ∧
      ((empty ⟨64, 8, 2⟩).serveAll mixedRequests).1.checkInvariants = .ok () := by
  have hnew : new ⟨64, 8, 2⟩ = .ok (empty ⟨64, 8, 2⟩) := rfl
  have hserved := serveAll_of_new hnew mixedRequests
  exact ⟨hnew, by decide +kernel, by decide +kernel, hserved.1⟩

end Memory

end PointerSemantics
