import Mathlib.Order.Bounds.Basic
import PointerSemantics.Proofs.Memory.Proposals

/-!
# First fit

The places proposed for a block are the lowest ones that are free, each of them the first behind the one
before, and fewer than asked for only where no more are left (`Memory.firstFit_proposeCandidates`).

The search never steps over a free place. Where something is in the way of a range, everything up to the
highest end of what is in the way is taken: a range that starts further up, but below that end, meets the
same obstacle (`Memory.blockingStop_le`). Rounding up skips no aligned address
(`isLeast_of_alignUp`), and where it yields no word the address space ended long before.
-/

namespace PointerSemantics

/-! ## Rounding up -/

/-- Rounding up yields the first multiple. -/
theorem isLeast_of_alignUp {value align a : Nat} (halign : Word.isPowerOfTwo align = true)
    (h : alignUp value align = some a) : IsLeast {x | align ∣ x ∧ value ≤ x} a := by
  have hdvd : align ∣ a := Nat.dvd_of_mod_eq_zero (alignUp_mod halign h)
  refine ⟨⟨hdvd, le_alignUp h⟩, fun x ⟨hx, hle⟩ => ?_⟩
  have hpos := Word.pos_of_isPowerOfTwo halign
  have hlt : a < value + align := by
    unfold alignUp at h
    split at h
    · simp at h
    · obtain rfl := Option.some.inj h
      omega
  -- both are multiples, and the rounded one exceeds the value by less than one alignment
  obtain ⟨k, rfl⟩ := hdvd
  obtain ⟨l, rfl⟩ := hx
  have hkl : align * k < align * (l + 1) := by rw [Nat.mul_succ]; omega
  exact Nat.mul_le_mul_left _ (Nat.lt_succ_iff.1 (Nat.lt_of_mul_lt_mul_left hkl))

/-- Where rounding up yields no word, the multiples ahead are words of the upper half. -/
theorem count_le_of_alignUp_eq_none {value align x : Nat} (halign : Word.isPowerOfTwo align = true)
    (h : alignUp value align = none) (hdvd : align ∣ x) (hpos : 0 < x) (hle : value ≤ x) :
    Word.count ≤ x + x := by
  have halignx := Nat.le_of_dvd hpos hdvd
  have halignpos := Word.pos_of_isPowerOfTwo halign
  unfold alignUp at h
  split at h
  · next hnone =>
    rcases hnone with hzero | hcount
    · omega
    · omega
  · simp at h

namespace Memory

/-- A block of that size and alignment could lie at the address. -/
structure Slot (m : Memory) (size align a : Nat) : Prop where
  pos : 0 < a
  aligned : align ∣ a
  inside : a + size ≤ m.config.memsz
  /-- Clear of every range that a live block reserves -/
  free : ∀ r ∈ m.reservedRanges, (AddrRange.mk a size).Apart r

/-- The lowest slots from `base` on, each behind the one before, at most `max` of them. They are fewer
only if no more are left. -/
inductive FirstFit (m : Memory) (size align : Nat) : Nat → Nat → List Nat → Prop
  | full {base} : FirstFit m size align 0 base []
  | exhausted {max base} (h : ∀ a, m.Slot size align a → a < base) : FirstFit m size align max base []
  | next {max base a as} (h : IsLeast {x | m.Slot size align x ∧ base ≤ x} a)
      (hrest : FirstFit m size align max (a + size) as) : FirstFit m size align (max + 1) base (a :: as)

variable {m : Memory} {size align max base : Nat} {as : List Nat}

/-! ## What first fit means -/

namespace FirstFit

theorem length_le (h : m.FirstFit size align max base as) : as.length ≤ max := by
  induction h with
  | full | exhausted => exact Nat.zero_le _
  | next _ _ ih => exact Nat.succ_le_succ ih

theorem isLeast_head {a : Nat} (h : m.FirstFit size align max base as) (ha : as[0]? = some a) :
    IsLeast {x | m.Slot size align x ∧ base ≤ x} a := by
  cases h with
  | full | exhausted => simp at ha
  | next hleast _ =>
    obtain rfl := Option.some.inj ha
    exact hleast

theorem isLeast_succ {k a b : Nat} (h : m.FirstFit size align max base as) (ha : as[k]? = some a)
    (hb : as[k + 1]? = some b) : IsLeast {x | m.Slot size align x ∧ a + size ≤ x} b := by
  induction h generalizing k with
  | full | exhausted => simp at ha
  | next _ hrest ih =>
    cases k with
    | zero =>
      obtain rfl := Option.some.inj ha
      exact hrest.isLeast_head hb
    | succ k => exact ih ha hb

/-- Nothing is left behind the last place if there are fewer than asked for. -/
theorem lt_of_slot (h : m.FirstFit size align max base as) (hlength : as.length < max) {x : Nat}
    (hx : m.Slot size align x) : x < (as.getLast?.map (· + size)).getD base := by
  induction h with
  | full => simp at hlength
  | exhausted hnone => exact hnone x hx
  | @next _ _ a as _ _ ih =>
    have hrest := ih (Nat.lt_of_succ_lt_succ hlength)
    cases as with
    | nil => exact hrest
    | cons b bs => rwa [List.getLast?_cons_cons]

/-- The search may begin further down if no slot lies in between. -/
theorem of_le {next : Nat} (h : m.FirstFit size align max next as) (hle : base ≤ next)
    (hnone : ∀ x, m.Slot size align x → base ≤ x → next ≤ x) : m.FirstFit size align max base as := by
  cases h with
  | full => exact .full
  | exhausted hlast =>
    refine .exhausted fun x hx => Nat.lt_of_not_le fun hbase => ?_
    exact Nat.not_lt.2 (hnone x hx hbase) (hlast x hx)
  | next hleast hrest =>
    obtain ⟨⟨hslot, hnext⟩, hlower⟩ := hleast
    refine .next ⟨⟨hslot, Nat.le_trans hle hnext⟩, fun x ⟨hx, hbase⟩ => ?_⟩ hrest
    exact hlower ⟨hx, hnone x hx hbase⟩

end FirstFit

/-! ## The search -/

/-- What is in the way of a range is in the way of those that start further up, to its highest end. -/
theorem blockingStop_le {taken : List AddrRange} {stop x : Nat}
    (h : blockingStop? taken ⟨base, size⟩ = some stop) (hx : base ≤ x)
    (hfree : ∀ r ∈ taken, (AddrRange.mk x size).Apart r) : stop ≤ x := by
  obtain ⟨r, hr, rfl⟩ := List.mem_map.1 (List.max?_mem h)
  obtain ⟨hr, hoverlaps⟩ := List.mem_filter.1 hr
  obtain ⟨hlen, hsize, hbelow, hstart⟩ := AddrRange.overlaps_iff.1 hoverlaps
  have hapart := hfree r hr
  rw [AddrRange.apart_iff (r := ⟨x, size⟩) hsize hlen] at hapart
  rcases hapart with hle | hle
  · exact hle
  · -- the range further up does not stop before the obstacle begins
    have hmono : (AddrRange.mk base size).stop ≤ (AddrRange.mk x size).stop := by
      simp only [AddrRange.stop, Word.saturatingAdd]
      omega
    exact absurd hbelow (Nat.not_lt.2 (Nat.le_trans hmono hle))

/-- No slot lies between an address and the one it is rounded up to. -/
theorem Slot.le_of_alignUp {value next x : Nat} (hx : m.Slot size align x)
    (halign : Word.isPowerOfTwo align = true) (h : alignUp value align = some next) (hle : value ≤ x) :
    next ≤ x := (isLeast_of_alignUp halign h).2 ⟨hx.aligned, hle⟩

/-- No slot lies above an address that cannot be rounded up. -/
theorem Slot.lt_of_alignUp_eq_none {value x : Nat} (hx : m.Slot size align x)
    (hvalid : m.config.validate = .ok ()) (halign : Word.isPowerOfTwo align = true)
    (h : alignUp value align = none) : x < value := by
  refine Nat.lt_of_not_le fun hle => ?_
  have hcount := count_le_of_alignUp_eq_none halign h hx.aligned hx.pos hle
  have hinside := hx.inside
  have hmemsz := MemConfig.memsz_le hvalid
  have hsmall : maxMemsz + maxMemsz < Word.count := by decide
  omega

theorem firstFit_placesFrom (hvalid : m.config.validate = .ok ()) (positive : 0 < size)
    (halign : Word.isPowerOfTwo align = true) (max base : Nat) (hpos : 0 < base) (hbase : align ∣ base) :
    m.FirstFit size align max base
      (placesFrom m.config.memsz size align positive m.reservedRanges max base) := by
  fun_induction placesFrom m.config.memsz size align positive m.reservedRanges max base with
  | case1 max base hend =>
    rcases hend with rfl | hend
    · exact .full
    · refine .exhausted fun x hx => ?_
      have := hx.inside
      omega
  | case2 max base hend stop hstop next hnext ih =>
    -- something is in the way: no slot lies below the next base tried
    obtain ⟨⟨hdvd, hle⟩, -⟩ := isLeast_of_alignUp halign hnext
    have hlt := lt_blockingStop hstop
    simp only at hlt
    refine (ih (by omega) hdvd).of_le (by omega) fun x hx hx' => ?_
    exact hx.le_of_alignUp halign hnext (blockingStop_le hstop hx' hx.free)
  | case3 max base hend stop hstop hnext =>
    refine .exhausted fun x hx => Nat.lt_of_not_le fun hx' => ?_
    exact Nat.not_lt.2 (blockingStop_le hstop hx' hx.free) (hx.lt_of_alignUp_eq_none hvalid halign hnext)
  | case4 max base hend hstop ih =>
    -- the place is free: it is the first slot, and the search goes on behind it
    rw [not_or] at hend
    have hfree := AddrRange.disjointFrom_iff.1 (blockingStop?_eq_none_iff.1 hstop)
    have hslot : m.Slot size align base := ⟨hpos, hbase, Nat.not_lt.1 hend.2, hfree⟩
    obtain ⟨max, rfl⟩ := Nat.exists_eq_succ_of_ne_zero hend.1
    refine .next ⟨⟨hslot, Nat.le_refl _⟩, fun x hx => hx.2⟩ ?_
    split
    · next next hnext =>
      obtain ⟨⟨hdvd, hle⟩, -⟩ := isLeast_of_alignUp halign hnext
      refine (ih next hnext (by omega) hdvd).of_le hle fun x hx hx' => ?_
      exact hx.le_of_alignUp halign hnext hx'
    · next hnext => exact .exhausted fun x hx => hx.lt_of_alignUp_eq_none hvalid halign hnext

/-- The places proposed are the lowest slots of the address space. -/
theorem firstFit_proposeCandidates (hvalid : m.config.validate = .ok ()) (positive : 0 < size)
    (halign : Word.isPowerOfTwo align = true) (max : Nat) :
    m.FirstFit size align max 0 (m.proposeCandidates size align max) := by
  unfold proposeCandidates
  rw [dif_pos ⟨positive, halign⟩]
  have hpos := Word.pos_of_isPowerOfTwo halign
  refine (firstFit_placesFrom hvalid positive halign max align hpos (Nat.dvd_refl _)).of_le
    (Nat.zero_le _) fun x hx _ => ?_
  exact Nat.le_of_dvd hx.pos hx.aligned

end Memory

end PointerSemantics
