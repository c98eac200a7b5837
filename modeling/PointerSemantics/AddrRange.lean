import PointerSemantics.Word

/-!
# Address ranges

Half-open ranges of 64-bit addresses. A range that would run past the last address stops there.

`allDisjoint` sorts the ranges and compares neighbours; for non-empty ranges that is the same as
comparing every two of them.
-/

namespace PointerSemantics

/-- The addresses from `start` on, `len` of them. -/
structure AddrRange where
  start : Nat
  len : Nat
deriving DecidableEq, Inhabited

namespace AddrRange

/-- The address behind the last one. -/
def stop (r : AddrRange) : Nat := Word.saturatingAdd r.start r.len

def isEmpty (r : AddrRange) : Bool := r.len == 0

/-- Some address lies in both ranges. -/
def overlaps (r s : AddrRange) : Bool :=
  !r.isEmpty && !s.isEmpty && r.start < s.stop && s.start < r.stop

/-- The `len` addresses from `addr` on lie in the range. -/
def contains (r : AddrRange) (addr len : Nat) : Bool :=
  r.start ≤ addr && Word.saturatingAdd addr len ≤ r.stop

theorem overlaps_iff {r s : AddrRange} : r.overlaps s = true ↔
    r.len ≠ 0 ∧ s.len ≠ 0 ∧ r.start < s.stop ∧ s.start < r.stop := by
  simp [overlaps, isEmpty, and_assoc]

theorem overlaps_comm (r s : AddrRange) : r.overlaps s = s.overlaps r := by
  rw [Bool.eq_iff_iff, overlaps_iff, overlaps_iff]
  grind

theorem contains_iff {r : AddrRange} {addr len : Nat} : r.contains addr len = true ↔
    r.start ≤ addr ∧ Word.saturatingAdd addr len ≤ r.stop := by
  simp [contains]

/-- Order by start, then by length. -/
def precedes (r s : AddrRange) : Bool := r.start < s.start || r.start == s.start && r.len ≤ s.len

def insertSorted (r : AddrRange) : List AddrRange → List AddrRange
  | [] => [r]
  | s :: rest => if r.precedes s then r :: s :: rest else s :: insertSorted r rest

def sort (rs : List AddrRange) : List AddrRange := rs.foldr insertSorted []

theorem mem_insertSorted {r x : AddrRange} {rs : List AddrRange} :
    x ∈ insertSorted r rs ↔ x = r ∨ x ∈ rs := by
  induction rs with
  | nil => simp [insertSorted]
  | cons s rest ih => unfold insertSorted; grind

@[simp] theorem mem_sort {x : AddrRange} {rs : List AddrRange} : x ∈ sort rs ↔ x ∈ rs := by
  induction rs with
  | nil => simp [sort]
  | cons r rest ih =>
    unfold sort at ih ⊢
    rw [List.foldr_cons, mem_insertSorted, ih, List.mem_cons]

/-- Each range stops before the next one starts. -/
def inSequence : List AddrRange → Bool
  | r :: s :: rest => r.stop ≤ s.start && inSequence (s :: rest)
  | _ => true

/-- No two ranges overlap. -/
def allDisjoint (rs : List AddrRange) : Bool := inSequence (sort rs)

def disjointFrom (r : AddrRange) (rs : List AddrRange) : Bool := rs.all fun s => !r.overlaps s

theorem disjointFrom_iff {r : AddrRange} {rs : List AddrRange} :
    r.disjointFrom rs = true ↔ ∀ s ∈ rs, r.overlaps s = false := by
  simp [disjointFrom]

def noneEmpty (rs : List AddrRange) : Bool := rs.all fun r => !r.isEmpty

end AddrRange

/-- The next multiple of a power of two, if it is a 64-bit word. -/
def alignUp (value align : Nat) : Option Nat :=
  if align = 0 ∨ Word.count ≤ value + (align - 1) then none
  else
    let v := value + (align - 1)
    some (v - (v &&& (align - 1)))

theorem le_alignUp {value align a : Nat} (h : alignUp value align = some a) : value ≤ a := by
  unfold alignUp at h
  split at h
  · simp at h
  · simp only [Option.some.injEq] at h
    have := Nat.and_le_right (n := value + (align - 1)) (m := align - 1)
    omega

end PointerSemantics
