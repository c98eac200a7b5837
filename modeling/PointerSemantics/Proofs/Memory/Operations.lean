import PointerSemantics.Effect
import PointerSemantics.Memory.Access

/-!
# What the operations on memory do

One equivalence for each operation: when it succeeds, and which memory or bytes it yields. Every
operation changes the table of blocks under a single number; the `get?_…` lemmas say so through the
look-up view, and nothing later unfolds an operation again.
-/

namespace PointerSemantics

namespace Memory

variable {m m' : Memory} {id : BlockId}

theorem mem_entries_iff {b : Block} : (id, b) ∈ m.blocks.entries ↔ m.get? id = some b :=
  (m.blocks.find?_eq_some_iff id b).symm

theorem mem_values_iff {b : Block} : b ∈ m.blocks.values ↔ ∃ id, m.get? id = some b :=
  m.blocks.mem_values_iff b

theorem mem_liveBlocks_iff {b : Block} :
    b ∈ m.liveBlocks ↔ (∃ id, m.get? id = some b) ∧ b.isAlive = true := by
  rw [liveBlocks, List.mem_filter, mem_values_iff]

theorem mem_reservedRanges_iff {r : AddrRange} : r ∈ m.reservedRanges ↔
    ∃ id b, m.get? id = some b ∧ b.isAlive = true ∧ ∃ a ∈ b.candidates, r = ⟨a, b.size⟩ := by
  rw [reservedRanges, List.mem_flatMap]
  constructor
  · rintro ⟨b, hb, hr⟩
    obtain ⟨⟨id, hid⟩, halive⟩ := mem_liveBlocks_iff.1 hb
    obtain ⟨a, ha, rfl⟩ := List.mem_map.1 hr
    exact ⟨id, b, hid, halive, a, ha, rfl⟩
  · rintro ⟨id, b, hid, halive, a, ha, rfl⟩
    exact ⟨b, mem_liveBlocks_iff.2 ⟨⟨id, hid⟩, halive⟩, List.mem_map_of_mem ha⟩

theorem fits_iff {r : AddrRange} {align : Nat} : m.fits r align = true ↔
    0 < r.start ∧ r.start % align = 0 ∧ r.stop ≤ m.config.memsz := by
  simp [fits, and_assoc]

/-! ## Writing and reading -/

theorem live_bind_eq_ok_iff {α : Type} {f : Block → Except MemError α} {a : α} :
    m.live id >>= f = .ok a ↔ ∃ b, m.get? id = some b ∧ b.isAlive = true ∧ f b = .ok a := by
  cases h : m.live id with
  | error e =>
    simp only [bind, Except.bind, reduceCtorEq, false_iff, not_exists]
    rintro b ⟨hb, halive, -⟩
    rw [live_eq_ok_iff.2 ⟨hb, halive⟩] at h
    simp at h
  | ok b =>
    obtain ⟨hb, halive⟩ := live_eq_ok_iff.1 h
    show f b = .ok a ↔ _
    constructor
    · exact fun hf => ⟨b, hb, halive, hf⟩
    · rintro ⟨c, hc, -, hf⟩
      obtain rfl : b = c := Option.some.inj (hb.symm.trans hc)
      exact hf

/-- A write changes bytes of one live block. -/
theorem write_eq_ok_iff {offset : Nat} {bytes : List Byte} : m.write id offset bytes = .ok m' ↔
    ∃ b, m.get? id = some b ∧ b.isAlive = true ∧ offset + bytes.length ≤ b.size ∧
      m' = { m with
        blocks := m.blocks.insert id { b with bytes := overwrite b.bytes offset bytes } } := by
  unfold write
  rw [live_bind_eq_ok_iff]
  refine exists_congr fun b => and_congr_right fun _ => and_congr_right fun _ => ?_
  simp only [Block.accessInBounds, decide_eq_true_eq]
  split
  · next hle => simp [hle, pure, Except.pure, eq_comm]
  · next hle => simp [hle]

theorem read_eq_ok_iff {offset len : Nat} {bytes : List Byte} : m.read id offset len = .ok bytes ↔
    ∃ b, m.get? id = some b ∧ b.isAlive = true ∧ offset + len ≤ b.size ∧
      bytes = (b.bytes.drop offset).take len := by
  unfold read
  rw [live_bind_eq_ok_iff]
  refine exists_congr fun b => and_congr_right fun _ => and_congr_right fun _ => ?_
  simp only [Block.accessInBounds, decide_eq_true_eq]
  split
  · next hle => simp [hle, pure, Except.pure, eq_comm]
  · next hle => simp [hle]

/-- A read looks at one block only. -/
theorem read_congr (h : m'.get? id = m.get? id) (offset len : Nat) :
    m'.read id offset len = m.read id offset len := by
  unfold read live
  rw [h]

theorem read_of_isAlive {b : Block} (hb : m.get? id = some b) (halive : b.isAlive = true)
    (offset len : Nat) : m.read id offset len =
      if b.accessInBounds offset len then .ok ((b.bytes.drop offset).take len)
      else .error (.outOfBounds id offset len b.size) := by
  unfold read
  rw [live_eq_ok_iff.2 ⟨hb, halive⟩]
  rfl

/-- A write is refused where a read of the same range is, for the same reason. -/
theorem write_eq_error_iff {offset : Nat} {bytes : List Byte} {e : MemError} :
    m.write id offset bytes = .error e ↔ m.read id offset bytes.length = .error e := by
  unfold write read
  cases m.live id with
  | error e' => simp [bind, Except.bind]
  | ok b => cases h : b.accessInBounds offset bytes.length <;> simp [bind, Except.bind, pure, Except.pure, h]

/-! ## Allocating -/

/-- Placement reads the configuration and what is reserved only. -/
theorem viable_congr {m m' : Memory} (h : m'.config = m.config) {size align : Nat}
    (taken : List AddrRange) (as : List Nat) :
    m'.viable size align taken as = m.viable size align taken as := by
  induction as generalizing taken with
  | nil => rfl
  | cons a rest ih =>
    unfold viable fits
    simp only [ih, h]

theorem candidatesFor_congr {m m' : Memory} (hconfig : m'.config = m.config)
    (hreserved : m'.reservedRanges = m.reservedRanges) (size : Option Nat) :
    m'.candidatesFor size = m.candidatesFor size := by
  unfold candidatesFor proposeCandidates
  rw [hconfig, hreserved]

/-- The places an allocation may take, which become the twin addresses. -/
def places (m : Memory) (req : AllocRequest) : List Nat :=
  m.viable req.size req.align m.reservedRanges req.candidates

/-- The block an allocation makes at a base. -/
def newBlock (m : Memory) (req : AllocRequest) (base : Nat) : Block :=
  { id := m.freshId, kind := req.kind, base, size := req.size, born := m.clock, died := none,
    align := req.align, bytes := req.init.getD (List.replicate req.size .poison),
    candidates := .ofList (m.places req) }

/-- An allocation adds one block under the next number. -/
theorem allocate_eq_ok_iff {req : AllocRequest} : m.allocate req = .ok (id, m') ↔
    req.size ≠ 0 ∧ Word.isPowerOfTwo req.align = true ∧
      (∀ bytes, req.init = some bytes → bytes.length = req.size) ∧
      ∃ base, (m.places req)[req.pick]? = some base ∧ id = m.freshId ∧
        m' = { m with
          blocks := m.blocks.insert m.freshId (m.newBlock req base)
          clock := m.clock + 1
          freshId := m.freshId + 1 } := by
  unfold allocate
  by_cases hsize : req.size = 0
  · simp [hsize]
  by_cases halign : Word.isPowerOfTwo req.align = true
  · rw [if_neg hsize, if_neg (by simp [halign])]
    cases hinit : req.init.filter (·.length ≠ req.size) with
    | some bytes =>
      obtain ⟨hsome, hlen⟩ := Option.filter_eq_some_iff.1 hinit
      simp only [reduceCtorEq, false_iff]
      rintro ⟨-, -, h, -⟩
      simp [h bytes hsome] at hlen
    | none =>
      have hlen : ∀ bytes, req.init = some bytes → bytes.length = req.size := by
        intro bytes hb
        simpa [hb] using hinit
      have hplaces : m.viable req.size req.align m.reservedRanges req.candidates = m.places req := rfl
      simp only [hplaces]
      cases hp : (m.places req)[req.pick]? with
      | none =>
        split
        · simp
        · simp
        · next heq _ => simp at heq
      | some base =>
        split
        · next hnil => simp [hnil] at hp
        · next heq _ => simp at heq
        · next heq _ =>
          obtain rfl := Option.some.inj heq
          simp only [Except.ok.injEq, Prod.mk.injEq, Option.some.injEq, hsize, halign, ne_eq,
            not_false_eq_true, true_and, exists_eq_left']
          constructor
          · rintro ⟨rfl, rfl⟩
            exact ⟨hlen, rfl, rfl⟩
          · rintro ⟨-, rfl, rfl⟩
            exact ⟨rfl, rfl⟩
  · simp [hsize, halign]

/-! ## The view after an operation -/

theorem get?_write {offset : Nat} {bytes : List Byte} (h : m.write id offset bytes = .ok m')
    (i : BlockId) : ∃ b, m.get? id = some b ∧ b.isAlive = true ∧ m'.get? i =
      if i = id then some { b with bytes := overwrite b.bytes offset bytes } else m.get? i := by
  obtain ⟨b, hb, halive, -, rfl⟩ := write_eq_ok_iff.1 h
  exact ⟨b, hb, halive, Table.find?_insert _ _ _ _⟩

theorem get?_free (h : m.free id = .ok m') (i : BlockId) : ∃ b, m.get? id = some b ∧
    b.isAlive = true ∧
      m'.get? i = if i = id then some { b with died := some m.clock } else m.get? i := by
  obtain ⟨b, hb, halive, rfl⟩ := free_eq_ok_iff.1 h
  exact ⟨b, hb, halive, Table.find?_insert _ _ _ _⟩

end Memory

end PointerSemantics
