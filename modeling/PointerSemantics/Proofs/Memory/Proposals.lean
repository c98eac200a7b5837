import PointerSemantics.Proofs.Memory.Erasure
import PointerSemantics.Proofs.Memory.Preservation

/-!
# Proposals are viable

Every place that `proposeCandidates` proposes fits, and is clear of what is reserved and of the places
before it, so an allocation keeps all of them as twin addresses (`viable_proposeCandidates`). A pick
among them therefore never fails, and two picks make memories that differ in one base only
(`place_bases`).
-/

namespace PointerSemantics

/-- Rounding up to a power of two yields a multiple of it. -/
theorem alignUp_mod {value align a : Nat} (halign : Word.isPowerOfTwo align = true)
    (h : alignUp value align = some a) : a % align = 0 := by
  obtain ⟨k, rfl⟩ : ∃ k, align = 2 ^ k := ⟨align.log2, beq_iff_eq.1 halign⟩
  unfold alignUp at h
  split at h
  · simp at h
  · obtain rfl := Option.some.inj h
    rw [Nat.and_two_pow_sub_one_eq_mod]
    exact Nat.sub_mod_eq_zero_of_mod_eq (Nat.mod_mod _ _).symm

theorem Word.pos_of_isPowerOfTwo {n : Nat} (h : isPowerOfTwo n = true) : 0 < n := by
  have hn : n = 2 ^ n.log2 := beq_iff_eq.1 h
  have hpos : 0 < 2 ^ n.log2 := Nat.two_pow_pos _
  omega

namespace Memory

variable {m m' : Memory}

/-! ## The search for places -/

theorem blockingStop?_eq_none_iff {taken : List AddrRange} {r : AddrRange} :
    blockingStop? taken r = none ↔ r.disjointFrom taken = true := by
  unfold blockingStop?
  rw [List.max?_eq_none_iff, List.map_eq_nil_iff, List.filter_eq_nil_iff,
    AddrRange.disjointFrom_iff]
  refine forall₂_congr fun s _ => ?_
  rw [AddrRange.overlaps_comm, Bool.not_eq_true]

/-- The places found from an aligned base on are viable for any reserved ranges that lie below the base
or were avoided. -/
theorem viable_placesFrom {size align : Nat} (positive : 0 < size)
    (halign : Word.isPowerOfTwo align = true) (taken : List AddrRange) (max base : Nat)
    (hbase : 0 < base) (hmod : base % align = 0) (taken' : List AddrRange)
    (htaken : ∀ r ∈ taken', r ∈ taken ∨ r.stop ≤ base) :
    m.viable size align taken' (placesFrom m.config.memsz size align positive taken max base) =
      placesFrom m.config.memsz size align positive taken max base := by
  fun_induction placesFrom m.config.memsz size align positive taken max base generalizing taken' with
  | case1 max base hend => rfl
  | case2 max base hend stop hstop next hnext ih =>
    -- something is in the way: the search goes on behind it
    have hle : base ≤ next := by
      have hlt := lt_blockingStop hstop
      have hle := le_alignUp hnext
      simp only at hlt
      omega
    refine ih (by omega) (alignUp_mod halign hnext) taken' fun r hr => ?_
    exact (htaken r hr).imp_right fun hr => Nat.le_trans hr hle
  | case3 max base hend stop hstop hnext => rfl
  | case4 max base hend hstop ih =>
    -- the place is free: it is viable, and the search goes on behind it
    have hfree := blockingStop?_eq_none_iff.1 hstop
    have hdisjoint : (AddrRange.mk base size).disjointFrom taken' = true := by
      refine AddrRange.disjointFrom_iff.2 fun r hr => ?_
      rcases htaken r hr with hr | hr
      · exact AddrRange.disjointFrom_iff.1 hfree r hr
      · rw [Bool.eq_false_iff, ne_eq, AddrRange.overlaps_iff]
        rintro ⟨-, -, hlt, -⟩
        exact absurd hr (Nat.not_le.2 hlt)
    have hle : (AddrRange.mk base size).stop ≤ base + size := AddrRange.stop_le _
    have hfits : m.fits ⟨base, size⟩ align = true := fits_iff.2 ⟨hbase, hmod, by omega⟩
    rw [viable, if_pos (by rw [hfits, hdisjoint]; rfl)]
    refine congrArg (base :: ·) ?_
    split
    · next next hnext =>
      have hbelow := le_alignUp hnext
      refine ih next hnext (by omega) (alignUp_mod halign hnext) _ fun r hr => ?_
      rcases List.mem_cons.1 hr with rfl | hr
      · exact .inr (Nat.le_trans hle hbelow)
      · refine (htaken r hr).imp_right fun hr => ?_
        exact Nat.le_trans hr (Nat.le_trans (Nat.le_add_right _ _) hbelow)
    · rfl

/-- All proposed places are viable. -/
theorem viable_proposeCandidates (m : Memory) (size align max : Nat) :
    m.viable size align m.reservedRanges (m.proposeCandidates size align max) =
      m.proposeCandidates size align max := by
  unfold proposeCandidates
  by_cases h : 0 < size ∧ Word.isPowerOfTwo align = true
  · rw [dif_pos h]
    have hpos := Word.pos_of_isPowerOfTwo h.2
    exact viable_placesFrom h.1 h.2 _ max align hpos (Nat.mod_self align) _ fun r hr => .inl hr
  · rw [dif_neg h]
    rfl

/-! ## Taking a proposed place -/

theorem mem_proposeCandidates {size align max a : Nat} (h : a ∈ m.proposeCandidates size align max) :
    0 < size ∧ Word.isPowerOfTwo align = true := by
  unfold proposeCandidates at h
  split at h
  · next hsize => exact hsize
  · exact absurd h List.not_mem_nil

/-- An allocation at a proposed place succeeds, and all proposed places become twin addresses. -/
theorem allocate_proposed (req : AllocRequest) {max base : Nat} (hinit : req.init = none)
    (hcandidates : req.candidates = m.proposeCandidates req.size req.align max)
    (h : req.candidates[req.pick]? = some base) :
    m.places req = req.candidates ∧
      m.allocate req = .ok (m.freshId, { m with
        blocks := m.blocks.insert m.freshId (m.newBlock req base)
        clock := m.clock + 1
        freshId := m.freshId + 1 }) := by
  have hmem := List.mem_of_getElem? h
  rw [hcandidates] at hmem
  obtain ⟨hsize, halign⟩ := mem_proposeCandidates hmem
  have hplaces : m.places req = req.candidates := by
    unfold places
    rw [hcandidates]
    exact viable_proposeCandidates m req.size req.align max
  refine ⟨hplaces, allocate_eq_ok_iff.2 ⟨Nat.ne_of_gt hsize, halign, ?_, base, ?_, rfl, rfl⟩⟩
  · simp [hinit]
  · rw [hplaces]
    exact h

/-- The request for a block at one of the places offered. -/
def offer (m : Memory) (kind : BlockKind) (size pick : Nat) : AllocRequest where
  kind := kind
  size := size
  align := m.config.sysalign
  init := none
  candidates := m.candidatesFor (some size)
  pick := pick

/-- A placement among the places offered is an allocation. -/
theorem place_eq_allocate (kind : BlockKind) {size pick base : Nat}
    (h : (m.candidatesFor (some size))[pick]? = some base) :
    m.place kind (some size) (m.candidatesFor (some size)) pick =
      Exec.ofMemory (m.allocate (m.offer kind size pick)) := by
  have hlt : pick < (m.candidatesFor (some size)).length := (List.getElem?_eq_some_iff.1 h).1
  have hne : m.candidatesFor (some size) ≠ [] := List.ne_nil_of_length_pos (Nat.zero_lt_of_lt hlt)
  rw [place.eq_3 _ _ _ _ _ hne, if_neg (Nat.not_le.2 hlt)]
  rfl

/-- It succeeds, at the place picked. -/
theorem place_offered (kind : BlockKind) {size pick base : Nat}
    (h : (m.candidatesFor (some size))[pick]? = some base) :
    m.place kind (some size) (m.candidatesFor (some size)) pick = .ok (m.freshId, { m with
      blocks := m.blocks.insert m.freshId (m.newBlock (m.offer kind size pick) base)
      clock := m.clock + 1
      freshId := m.freshId + 1 }) := by
  rw [place_eq_allocate kind h, (allocate_proposed (m.offer kind size pick) rfl rfl h).2]
  rfl

/-- A placement among the places offered fails only where there are none, and then memory is exhausted,
or where the pick is beyond them. -/
theorem place_cases (m : Memory) (kind : BlockKind) (size : Option Nat) (pick : Nat) :
    (m.candidatesFor size = [] ∧
      m.place kind size (m.candidatesFor size) pick = .error .outOfMemory) ∨
    (m.candidatesFor size ≠ [] ∧ (m.candidatesFor size).length ≤ pick ∧
      m.place kind size (m.candidatesFor size) pick = Exec.stuck .invalidChoice) ∨
    ∃ n base, size = some n ∧ (m.candidatesFor size)[pick]? = some base := by
  cases size with
  | none => exact .inl ⟨rfl, rfl⟩
  | some size =>
    by_cases hnil : m.candidatesFor (some size) = []
    · refine .inl ⟨hnil, ?_⟩
      rw [hnil]
      rfl
    · refine .inr ?_
      by_cases hle : (m.candidatesFor (some size)).length ≤ pick
      · refine .inl ⟨hnil, hle, ?_⟩
        rw [place.eq_3 _ _ _ _ _ hnil, if_pos hle]
      · exact .inr ⟨size, _, rfl, List.getElem?_eq_getElem (Nat.not_le.1 hle)⟩

/-- A legal placement fails only where no place was offered, and then memory is exhausted. -/
theorem place_error {kind : BlockKind} {size : Option Nat} {pick : Nat} {h : Halt}
    (hpick : pick < max (m.candidatesFor size).length 1)
    (herror : m.place kind size (m.candidatesFor size) pick = .error h) :
    m.candidatesFor size = [] ∧ h = .outOfMemory := by
  rcases m.place_cases kind size pick with ⟨hnil, hplace⟩ | ⟨hne, hle, -⟩ | ⟨n, base, rfl, hbase⟩
  · rw [hplace] at herror
    exact ⟨hnil, (Except.error.inj herror).symm⟩
  · have hpos := List.length_pos_iff.2 hne
    omega
  · rw [place_offered kind hbase] at herror
    simp at herror

/-- Of the places offered for a block, legal picks make memories that are equal but for a base. -/
theorem place_bases (kind : BlockKind) {size : Option Nat} {i j : Nat}
    (hi : i < max (m.candidatesFor size).length 1) (hj : j < max (m.candidatesFor size).length 1) :
    (m.place kind size (m.candidatesFor size) i).map (fun x => (x.1, x.2.erase .bases)) =
      (m.place kind size (m.candidatesFor size) j).map fun x => (x.1, x.2.erase .bases) := by
  cases size with
  | none => rfl
  | some size =>
    by_cases hnil : m.candidatesFor (some size) = []
    · rw [hnil]
      rfl
    · have hpos : 0 < (m.candidatesFor (some size)).length := List.length_pos_iff.2 hnil
      rw [Nat.max_eq_left hpos] at hi hj
      rw [place_offered kind (List.getElem?_eq_getElem hi),
        place_offered kind (List.getElem?_eq_getElem hj)]
      refine congrArg (fun n => Except.ok (m.freshId, n)) ?_
      -- the blocks made differ in their base alone
      unfold erase
      rw [Table.map_insert, Table.map_insert]
      rfl

end Memory

end PointerSemantics
