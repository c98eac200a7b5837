import PointerSemantics.AddrRange

/-!
# Ranges apart

`allDisjoint` sorts a list of ranges and looks at neighbours only. For ranges that are not empty this
decides whether any two of them overlap (`allDisjoint_iff`). The ends saturate, so a range that would
run past the last address stops there; the neighbours of a sorted list still tell.

So the answer does not depend on the order of the list, and checking a new range against a list of
ranges that are apart, as an allocation does with each candidate, tells whether the longer list passes
(`allDisjoint_pairs_perm_and_added`).
-/

namespace PointerSemantics

namespace AddrRange

/-- No address lies in both ranges. -/
def Apart (r s : AddrRange) : Prop := r.overlaps s = false

theorem Apart.symm {r s : AddrRange} (h : r.Apart s) : s.Apart r := by
  unfold Apart at *
  rw [overlaps_comm, h]

/-- Ranges that are not empty are apart if one stops before the other starts. -/
theorem apart_iff {r s : AddrRange} (hr : r.len ≠ 0) (hs : s.len ≠ 0) :
    r.Apart s ↔ s.stop ≤ r.start ∨ r.stop ≤ s.start := by
  unfold Apart
  rw [Bool.eq_false_iff, ne_eq, overlaps_iff]
  omega

theorem stop_eq {r : AddrRange} (h : r.start + r.len ≤ Word.max) : r.stop = r.start + r.len := by
  unfold stop Word.saturatingAdd
  exact Nat.min_eq_left h

theorem stop_le (r : AddrRange) : r.stop ≤ r.start + r.len := Nat.min_le_left _ _

theorem stop_le_max (r : AddrRange) : r.stop ≤ Word.max := Nat.min_le_right _ _

/-- Only a range at the very end of the address space stops no later than it starts. -/
theorem max_le_start_of_stop_le {r : AddrRange} (h : r.len ≠ 0) (hs : r.stop ≤ r.start) :
    Word.max ≤ r.start := by
  unfold stop Word.saturatingAdd at hs
  omega

/-! ## Sorting -/

theorem insertSorted_perm (r : AddrRange) (rs : List AddrRange) :
    (insertSorted r rs).Perm (r :: rs) := by
  induction rs with
  | nil => exact .refl _
  | cons s rest ih =>
    unfold insertSorted
    split
    · exact .refl _
    · exact (ih.cons s).trans (.swap r s rest)

theorem sort_perm (rs : List AddrRange) : (sort rs).Perm rs := by
  induction rs with
  | nil => exact .refl _
  | cons r rest ih => exact (insertSorted_perm r _).trans (ih.cons r)

theorem start_le_of_precedes {r s : AddrRange} (h : r.precedes s = true) : r.start ≤ s.start := by
  simp only [precedes, Bool.or_eq_true, Bool.and_eq_true, beq_iff_eq, decide_eq_true_eq] at h
  omega

theorem start_le_of_not_precedes {r s : AddrRange} (h : ¬r.precedes s = true) :
    s.start ≤ r.start := by
  simp only [precedes, Bool.or_eq_true, Bool.and_eq_true, beq_iff_eq, decide_eq_true_eq] at h
  omega

theorem pairwise_insertSorted (r : AddrRange) {rs : List AddrRange}
    (h : rs.Pairwise (·.start ≤ ·.start)) :
    (insertSorted r rs).Pairwise (·.start ≤ ·.start) := by
  induction rs with
  | nil => simp [insertSorted]
  | cons s rest ih =>
    have hs := List.pairwise_cons.1 h
    unfold insertSorted
    split
    · next hp =>
      have hrs := start_le_of_precedes hp
      refine List.pairwise_cons.2 ⟨fun x hx => ?_, h⟩
      rcases List.mem_cons.1 hx with rfl | hx
      · exact hrs
      · exact Nat.le_trans hrs (hs.1 x hx)
    · next hp =>
      refine List.pairwise_cons.2 ⟨fun x hx => ?_, ih hs.2⟩
      rcases mem_insertSorted.1 hx with rfl | hx
      · exact start_le_of_not_precedes hp
      · exact hs.1 x hx

theorem pairwise_sort (rs : List AddrRange) : (sort rs).Pairwise (·.start ≤ ·.start) := by
  induction rs with
  | nil => exact .nil
  | cons r rest ih => exact pairwise_insertSorted r ih

/-! ## Neighbours -/

/-- In a list sorted by start, neighbours in sequence put all ranges in sequence. -/
theorem inSequence_iff {rs : List AddrRange} (h : rs.Pairwise (·.start ≤ ·.start)) :
    inSequence rs = true ↔ rs.Pairwise (·.stop ≤ ·.start) := by
  induction rs with
  | nil => simp [inSequence]
  | cons r rest ih =>
    have hr := List.pairwise_cons.1 h
    cases rest with
    | nil => simp [inSequence]
    | cons s rest =>
      rw [inSequence, Bool.and_eq_true, decide_eq_true_eq, ih hr.2, List.pairwise_cons (a := r)]
      constructor
      · rintro ⟨hrs, hrest⟩
        refine ⟨fun x hx => ?_, hrest⟩
        rcases List.mem_cons.1 hx with rfl | hx
        · exact hrs
        · exact Nat.le_trans hrs ((List.pairwise_cons.1 hr.2).1 x hx)
      · rintro ⟨hr', hrest⟩
        exact ⟨hr' s List.mem_cons_self, hrest⟩

theorem stop_le_start_iff {r s : AddrRange} (hr : r.len ≠ 0) (hs : s.len ≠ 0)
    (h : r.start ≤ s.start) : r.stop ≤ s.start ↔ r.Apart s := by
  rw [apart_iff hr hs]
  constructor
  · exact fun hle => .inr hle
  · rintro (hle | hle)
    · -- the later range stops before the earlier one starts: it lies at the very end
      have hmax := max_le_start_of_stop_le hs (Nat.le_trans hle h)
      exact Nat.le_trans r.stop_le_max hmax
    · exact hle

/-- Comparing the neighbours of the sorted list finds every overlap. -/
theorem allDisjoint_iff {rs : List AddrRange} (h : ∀ r ∈ rs, r.len ≠ 0) :
    allDisjoint rs = true ↔ rs.Pairwise Apart := by
  have hsort : ∀ r ∈ sort rs, r.len ≠ 0 := fun r hr => h r (mem_sort.1 hr)
  rw [← (sort_perm rs).pairwise_iff (R := Apart) Apart.symm, allDisjoint,
    inSequence_iff (pairwise_sort rs)]
  have hle := pairwise_sort rs
  generalize sort rs = ss at hsort hle
  induction ss with
  | nil => simp
  | cons r rest ih =>
    have hr := List.pairwise_cons.1 hle
    have hrest : ∀ x ∈ rest, x.len ≠ 0 := fun x hx => hsort x (List.mem_cons_of_mem _ hx)
    have key : ∀ x ∈ rest, (r.stop ≤ x.start ↔ r.Apart x) := fun x hx =>
      stop_le_start_iff (hsort r List.mem_cons_self) (hrest x hx) (hr.1 x hx)
    rw [List.pairwise_cons, List.pairwise_cons]
    exact and_congr (forall₂_congr key) (ih hrest hr.2)

/-! ## Pairs, order, additions -/

theorem allDisjoint_iff_getElem {rs : List AddrRange} (h : ∀ r ∈ rs, r.len ≠ 0) :
    allDisjoint rs = true ↔ ∀ (i j : Nat) (hi : i < rs.length) (hj : j < rs.length), i ≠ j →
      rs[i].overlaps rs[j] = false := by
  rw [allDisjoint_iff h, List.pairwise_iff_getElem]
  constructor
  · intro hp i j hi hj hne
    rcases Nat.lt_or_gt_of_ne hne with hlt | hgt
    · exact hp i j hi hj hlt
    · exact (hp j i hj hi hgt).symm
  · intro hp i j hi hj hlt
    exact hp i j hi hj (Nat.ne_of_lt hlt)

theorem allDisjoint_perm {rs ss : List AddrRange} (h : ∀ r ∈ rs, r.len ≠ 0) (hp : ss.Perm rs) :
    allDisjoint ss = allDisjoint rs := by
  have hss : ∀ r ∈ ss, r.len ≠ 0 := fun r hr => h r (hp.mem_iff.1 hr)
  rw [Bool.eq_iff_iff, allDisjoint_iff hss, allDisjoint_iff h]
  exact hp.pairwise_iff Apart.symm

/-- The check of a new range against the others is the part of the check that is new. -/
theorem allDisjoint_cons_iff {r : AddrRange} {rs : List AddrRange} (hr : r.len ≠ 0)
    (h : ∀ s ∈ rs, s.len ≠ 0) :
    allDisjoint (r :: rs) = true ↔ r.disjointFrom rs = true ∧ allDisjoint rs = true := by
  rw [allDisjoint_iff (List.forall_mem_cons.2 ⟨hr, h⟩), allDisjoint_iff h, List.pairwise_cons,
    disjointFrom_iff]
  rfl

/-- For ranges that are not empty, the scan of the sorted list tells whether two of them overlap; its
answer is that for any other order of the list; and a range may join ranges that are apart, wherever
it is put, if and only if it is disjoint from them. -/
theorem allDisjoint_pairs_perm_and_added {rs : List AddrRange} (h : ∀ r ∈ rs, r.len ≠ 0) :
    (allDisjoint rs = true ↔ ∀ (i j : Nat) (hi : i < rs.length) (hj : j < rs.length), i ≠ j →
      rs[i].overlaps rs[j] = false) ∧
    (∀ ss : List AddrRange, ss.Perm rs → allDisjoint ss = allDisjoint rs) ∧
    ∀ r : AddrRange, r.len ≠ 0 → allDisjoint rs = true → ∀ ss : List AddrRange, ss.Perm (r :: rs) →
      (allDisjoint ss = true ↔ r.disjointFrom rs = true) := by
  refine ⟨allDisjoint_iff_getElem h, fun ss hp => allDisjoint_perm h hp, ?_⟩
  intro r hr hrs ss hp
  rw [allDisjoint_perm (List.forall_mem_cons.2 ⟨hr, h⟩) hp, allDisjoint_cons_iff hr h]
  exact and_iff_left hrs

/-- Ranges with equal starts, twice the same one, and ends beyond the last address. -/
def lastRanges : List AddrRange :=
  [⟨Word.max, 5⟩, ⟨8, 8⟩, ⟨Word.max - 3, 7⟩, ⟨Word.max, 1⟩, ⟨Word.max, 5⟩]

/-- At the end of the address space even a range and its copy are apart; a range that reaches into
another one is found out wherever it is put. -/
theorem lastRanges_pairs_and_added :
    (∀ r ∈ lastRanges, r.len ≠ 0) ∧ allDisjoint lastRanges = true ∧
      allDisjoint lastRanges.reverse = allDisjoint lastRanges ∧
      ¬allDisjoint (lastRanges ++ [⟨12, 8⟩]) = true := by
  have hne : ∀ r ∈ lastRanges, r.len ≠ 0 := by decide
  obtain ⟨-, hperm, hadd⟩ := allDisjoint_pairs_perm_and_added hne
  have hapart : allDisjoint lastRanges = true := by decide
  refine ⟨hne, hapart, hperm _ lastRanges.reverse_perm, ?_⟩
  rw [hadd ⟨12, 8⟩ (by decide) hapart _ (List.perm_append_singleton _ _)]
  decide

/-- An empty range in the middle of another overlaps nothing, but the scan takes offence at it. -/
example : overlaps ⟨8, 8⟩ ⟨10, 0⟩ = false ∧ allDisjoint [⟨8, 8⟩, ⟨10, 0⟩] = false := by decide

end AddrRange

end PointerSemantics
