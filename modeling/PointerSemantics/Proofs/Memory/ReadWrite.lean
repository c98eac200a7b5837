import Mathlib.Data.List.Basic
import Mathlib.Data.Set.BooleanAlgebra
import Mathlib.Order.CompletePartialOrder
import Mathlib.Order.Interval.Set.Defs
import PointerSemantics.Proofs.Memory.Preservation

/-!
# Reading after a write

A write replaces bytes of one block and changes nothing else (`Rewritten`). What a read finds afterwards is
what it found before with the bytes in the written range replaced (`Wf.read_write`), so it finds the bytes
that were written, or the old ones, or some of each, depending on how the ranges lie. A write and a read
of the same range are refused for the same reasons.
-/

namespace PointerSemantics

namespace Memory

variable {m m' : Memory} {id i : BlockId} {offset start len k : Nat} {old new bytes : List Byte}

/-! ## Lists of bytes -/

/-- The bytes read from `start` on if those in the range written at `offset` are replaced. -/
def patch (offset : Nat) (new : List Byte) (start : Nat) (old : List Byte) : List Byte :=
  old.mapIdx fun k byte => if offset ≤ start + k then new[start + k - offset]?.getD byte else byte

@[simp] theorem length_patch : (patch offset new start old).length = old.length := by
  simp [patch]

/-- Inside the written range stand the new bytes, outside the old ones. -/
theorem getElem?_patch (hk : k < old.length) : (patch offset new start old)[k]? =
    if offset ≤ start + k ∧ start + k < offset + new.length then new[start + k - offset]? else old[k]? := by
  rw [patch, List.getElem?_mapIdx, List.getElem?_eq_getElem hk, Option.map_some]
  by_cases hoffset : offset ≤ start + k
  · rw [if_pos hoffset]
    by_cases hin : start + k < offset + new.length
    · rw [if_pos ⟨hoffset, hin⟩, List.getElem?_eq_getElem (by omega), Option.getD_some]
    · rw [if_neg (fun h => hin h.2), List.getElem?_eq_none (by omega), Option.getD_none]
  · rw [if_neg hoffset, if_neg (fun h => hoffset h.1)]

/-- Outside the written range nothing is replaced. -/
theorem patch_eq_self
    (h : Disjoint (Set.Ico start (start + old.length)) (Set.Ico offset (offset + new.length))) :
    patch offset new start old = old := by
  refine List.ext_getElem? fun k => ?_
  by_cases hk : k < old.length
  · rw [getElem?_patch hk, if_neg]
    exact fun hin => Set.disjoint_left.1 h ⟨by omega, by omega⟩ hin
  · rw [List.getElem?_eq_none (by simpa using hk), List.getElem?_eq_none (by omega)]

/-- In the written range everything is replaced. -/
theorem patch_self (h : old.length = new.length) : patch offset new offset old = new := by
  refine List.ext_getElem? fun k => ?_
  by_cases hk : k < old.length
  · rw [getElem?_patch hk, if_pos ⟨by omega, by omega⟩, Nat.add_sub_cancel_left]
  · rw [List.getElem?_eq_none (by simpa using hk), List.getElem?_eq_none (by omega)]

theorem getElem?_overwrite (h : offset + new.length ≤ old.length) : (overwrite old offset new)[k]? =
    if offset ≤ k ∧ k < offset + new.length then new[k - offset]? else old[k]? := by
  have hlength : (old.take offset).length = offset := List.length_take_of_le (by omega)
  unfold overwrite
  rw [List.getElem?_append, List.length_append, hlength, List.getElem?_append, hlength, List.getElem?_take,
    List.getElem?_drop]
  by_cases hlo : offset ≤ k
  · by_cases hhi : k < offset + new.length
    · rw [if_pos hhi, if_neg (by omega), if_pos ⟨hlo, hhi⟩]
    · rw [if_neg hhi, if_neg (fun hin => hhi hin.2), Nat.add_sub_cancel' (by omega)]
  · rw [if_pos (by omega), if_pos (by omega), if_pos (by omega), if_neg (fun hin => hlo hin.1)]

/-- A part of the contents after a write is that part before with the written bytes replaced. -/
theorem take_drop_overwrite (h : offset + new.length ≤ old.length) :
    ((overwrite old offset new).drop start).take len =
      patch offset new start ((old.drop start).take len) := by
  refine List.ext_getElem? fun k => ?_
  by_cases hk : k < ((old.drop start).take len).length
  · have hlen : k < len := Nat.lt_of_lt_of_le hk (List.length_take_le _ _)
    rw [getElem?_patch hk, List.getElem?_take_of_lt hlen, List.getElem?_drop, getElem?_overwrite h,
      List.getElem?_take_of_lt hlen, List.getElem?_drop]
  · have hlength : (((overwrite old offset new).drop start).take len).length ≤ k := by
      rw [List.length_take, List.length_drop] at hk ⊢
      rw [length_overwrite h]
      omega
    rw [List.getElem?_eq_none hlength, List.getElem?_eq_none (by rw [length_patch]; omega)]

/-! ## Reads and writes -/

/-- `m'` is `m` with the bytes of one block from `offset` on replaced, and nothing else. -/
structure Rewritten (m m' : Memory) (id : BlockId) (offset : Nat) (bytes : List Byte) : Prop where
  config_eq : m'.config = m.config
  clock_eq : m'.clock = m.clock
  freshId_eq : m'.freshId = m.freshId
  others : ∀ i, i ≠ id → m'.get? i = m.get? i
  block : ∃ b contents, m.get? id = some b ∧ m'.get? id = some { b with bytes := contents } ∧
    contents.length = b.bytes.length ∧ ∀ k, contents[k]? =
      if offset ≤ k ∧ k < offset + bytes.length then bytes[k - offset]? else b.bytes[k]?

namespace Wf

theorem rewritten (hm : m.Wf) (hw : m.write id offset bytes = .ok m') : m.Rewritten m' id offset bytes := by
  obtain ⟨b, hb, -, hle, rfl⟩ := write_eq_ok_iff.1 hw
  rw [← (hm.block id b hb).length_bytes] at hle
  refine ⟨rfl, rfl, rfl, fun i hi => ?_, b, overwrite b.bytes offset bytes, hb, ?_, length_overwrite hle,
    fun k => getElem?_overwrite hle⟩
  · exact (Table.find?_insert _ _ _ _).trans (if_neg hi)
  · exact (Table.find?_insert _ _ _ _).trans (if_pos rfl)

/-- A write to another block does not change a read. -/
theorem read_write_of_ne (hm : m.Wf) (hw : m.write id offset bytes = .ok m') (hi : i ≠ id) (start len : Nat) :
    m'.read i start len = m.read i start len :=
  read_congr ((hm.rewritten hw).others i hi) start len

/-- A read of the block finds what it found before with the written bytes replaced, or fails as it did. -/
theorem read_write (hm : m.Wf) (hw : m.write id offset bytes = .ok m') (start len : Nat) :
    m'.read id start len = (m.read id start len).map (patch offset bytes start) := by
  obtain ⟨b, hb, halive, hget⟩ := get?_write hw id
  obtain ⟨c, hc, -, hle, -⟩ := write_eq_ok_iff.1 hw
  obtain rfl := Option.some.inj (hb.symm.trans hc)
  rw [← (hm.block id b hb).length_bytes] at hle
  rw [if_pos rfl] at hget
  rw [read_of_isAlive hget halive, read_of_isAlive hb halive, take_drop_overwrite hle]
  show (if b.accessInBounds start len then _ else _) = _
  split <;> rfl

theorem length_of_read (hm : m.Wf) (hr : m.read id start len = .ok old) : old.length = len := by
  obtain ⟨b, hb, -, hle, rfl⟩ := read_eq_ok_iff.1 hr
  rw [List.length_take, List.length_drop, (hm.block id b hb).length_bytes]
  omega

/-- What was written is read back. -/
theorem read_of_write (hm : m.Wf) (hw : m.write id offset bytes = .ok m') :
    m'.read id offset bytes.length = .ok bytes := by
  rw [hm.read_write hw]
  cases hr : m.read id offset bytes.length with
  | error e => simp [write_eq_error_iff.2 hr] at hw
  | ok old => rw [Except.map, patch_self (hm.length_of_read hr)]

/-- Where nothing was written a read finds what it found, or fails as it did. -/
theorem read_write_of_disjoint (hm : m.Wf) (hw : m.write id offset bytes = .ok m')
    (h : Disjoint (Set.Ico start (start + len)) (Set.Ico offset (offset + bytes.length))) :
    m'.read id start len = m.read id start len := by
  rw [hm.read_write hw]
  cases hr : m.read id start len with
  | error e => rfl
  | ok old => rw [Except.map, patch_eq_self (by rwa [hm.length_of_read hr])]

end Wf

/-- After a write every read finds the written bytes inside the written range and what it found before
outside, and nothing but those bytes has changed. A write succeeds where a read of the range does, and is
refused for the same reason otherwise. -/
theorem reads_after_write (hinvariant : m.checkInvariants = .ok ()) (id : BlockId) (offset : Nat)
    (bytes : List Byte) :
    (∀ m', m.write id offset bytes = .ok m' →
      m'.read id offset bytes.length = .ok bytes ∧
      (∀ i start len,
        i ≠ id ∨ Disjoint (Set.Ico start (start + len)) (Set.Ico offset (offset + bytes.length)) →
          m'.read i start len = m.read i start len) ∧
      (∀ start len old, m.read id start len = .ok old → ∃ found, m'.read id start len = .ok found ∧
        found.length = len ∧ ∀ k < len, found[k]? =
          if offset ≤ start + k ∧ start + k < offset + bytes.length then bytes[start + k - offset]?
          else old[k]?) ∧
      (∀ i start len e, m'.read i start len = .error e ↔ m.read i start len = .error e) ∧
      m.Rewritten m' id offset bytes) ∧
    ((∃ m', m.write id offset bytes = .ok m') ↔ ∃ old, m.read id offset bytes.length = .ok old) ∧
    ∀ e, m.write id offset bytes = .error e ↔ m.read id offset bytes.length = .error e := by
  have hm : m.Wf := checkInvariants_eq_ok_iff.1 hinvariant
  refine ⟨fun m' hw => ⟨hm.read_of_write hw, ?_, ?_, ?_, hm.rewritten hw⟩, ?_, fun e => write_eq_error_iff⟩
  · intro i start len h
    by_cases hi : i = id
    · subst hi
      exact hm.read_write_of_disjoint hw (h.resolve_left (not_not_intro rfl))
    · exact hm.read_write_of_ne hw hi start len
  · intro start len old hr
    have hlength := hm.length_of_read hr
    refine ⟨patch offset bytes start old, ?_, length_patch.trans hlength, fun k hk => ?_⟩
    · rw [hm.read_write hw, hr, Except.map]
    · exact getElem?_patch (hlength ▸ hk)
  · intro i start len e
    by_cases hi : i = id
    · subst hi
      rw [hm.read_write hw]
      cases m.read i start len <;> simp [Except.map]
    · rw [hm.read_write_of_ne hw hi]
  · -- each of the two fails exactly if the other does
    have hrefused : ∀ e, m.write id offset bytes = .error e ↔ m.read id offset bytes.length = .error e :=
      fun e => write_eq_error_iff
    cases hw : m.write id offset bytes with
    | error e => simp [(hrefused e).1 hw]
    | ok m' =>
      cases hr : m.read id offset bytes.length with
      | error e => simp [(hrefused e).2 hr] at hw
      | ok old => exact iff_of_true ⟨m', rfl⟩ ⟨old, rfl⟩

/-- A live block with the bytes one to four. -/
def countedBlock : Memory where
  blocks := Table.empty.insert 0
    { id := 0, kind := .heap, base := 8, size := 4, born := 0, died := none, align := 8,
      bytes := [1, 2, 3, 4].map Byte.ofNat, candidates := .ofList [8] }
  clock := 1
  freshId := 1
  config := ⟨64, 8, 2⟩

/-- Two nines in the middle, and a read of one of them with the byte behind it. -/
theorem countedBlock_reads_after_write :
    countedBlock.checkInvariants = .ok () ∧ ∃ m',
      countedBlock.write 0 1 [.ofNat 9, .ofNat 9] = .ok m' ∧ m'.read 0 2 2 = .ok [.ofNat 9, .ofNat 4] := by
  have hinvariant : countedBlock.checkInvariants = .ok () := by decide +kernel
  have hold : countedBlock.read 0 2 2 = .ok [.ofNat 3, .ofNat 4] := by decide +kernel
  obtain ⟨hwritten, hsucceeds, -⟩ := reads_after_write hinvariant 0 1 [.ofNat 9, .ofNat 9]
  obtain ⟨m', hw⟩ := hsucceeds.2 ⟨_, rfl⟩
  obtain ⟨-, -, hfound, -⟩ := hwritten m' hw
  obtain ⟨found, hread, hlength, hbyte⟩ := hfound 2 2 _ hold
  obtain ⟨x, y, rfl⟩ := List.length_eq_two.1 hlength
  obtain rfl := Option.some.inj (hbyte 0 (by decide))
  obtain rfl := Option.some.inj (hbyte 1 (by decide))
  exact ⟨hinvariant, m', hw, hread⟩

end Memory

end PointerSemantics
