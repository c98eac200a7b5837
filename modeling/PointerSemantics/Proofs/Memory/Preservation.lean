import Mathlib.Tactic.Tauto
import PointerSemantics.Proofs.Memory.Invariant

/-!
# What a change to memory leaves as it was

Writing, releasing and allocating keep the invariant, and they only ever add to the history of
memory (`Memory.Persists`): a block stays under its number with its place, its size and its twin
addresses, and a dead block does not change at all.
-/

namespace PointerSemantics

/-! ## Usable address spaces -/

theorem MemConfig.validate_eq_ok_iff {c : MemConfig} : c.validate = .ok () ↔
    2 ≤ c.memsz ∧ c.memsz ≤ maxMemsz ∧ Word.isPowerOfTwo c.sysalign = true ∧
      c.sysalign < c.memsz ∧ c.maxCandidates ≠ 0 := by
  unfold validate
  constructor
  · intro h
    split at h
    · simp at h
    · split at h
      · simp at h
      · split at h
        · simp at h
        · split at h
          · simp at h
          · next h1 h2 h3 h4 =>
            rw [not_or] at h1
            exact ⟨by omega, by omega, by simpa using h2, by omega, h4⟩
  · rintro ⟨h1, h2, h3, h4, h5⟩
    rw [if_neg (by omega), if_neg (by simp [h3]), if_neg (by omega), if_neg h5]

theorem MemConfig.memsz_le {c : MemConfig} (h : c.validate = .ok ()) : c.memsz ≤ maxMemsz :=
  (validate_eq_ok_iff.1 h).2.1

theorem MemConfig.memsz_pos {c : MemConfig} (h : c.validate = .ok ()) : 0 < c.memsz := by
  have := (validate_eq_ok_iff.1 h).1
  omega

theorem maxMemsz_lt_max : maxMemsz < Word.max := by decide

/-- Inside an address space no range saturates. -/
theorem AddrRange.stop_le_memsz_iff {c : MemConfig} (h : c.validate = .ok ()) {r : AddrRange} :
    r.stop ≤ c.memsz ↔ r.start + r.len ≤ c.memsz := by
  have h1 := MemConfig.memsz_le h
  have h2 := maxMemsz_lt_max
  unfold AddrRange.stop Word.saturatingAdd
  omega

/-! ## The history of a block -/

/-- What may become of a block: it dies, or its bytes change while it is alive. -/
structure Block.Becomes (b b' : Block) : Prop where
  id_eq : b'.id = b.id
  kind_eq : b'.kind = b.kind
  base_eq : b'.base = b.base
  size_eq : b'.size = b.size
  align_eq : b'.align = b.align
  born_eq : b'.born = b.born
  candidates_eq : b'.candidates = b.candidates
  dead : b.isAlive = false → b' = b

namespace Block.Becomes

variable {b c d : Block}

theorem refl (b : Block) : b.Becomes b := ⟨rfl, rfl, rfl, rfl, rfl, rfl, rfl, fun _ => rfl⟩

theorem trans (h : b.Becomes c) (h' : c.Becomes d) : b.Becomes d where
  id_eq := h'.id_eq.trans h.id_eq
  kind_eq := h'.kind_eq.trans h.kind_eq
  base_eq := h'.base_eq.trans h.base_eq
  size_eq := h'.size_eq.trans h.size_eq
  align_eq := h'.align_eq.trans h.align_eq
  born_eq := h'.born_eq.trans h.born_eq
  candidates_eq := h'.candidates_eq.trans h.candidates_eq
  dead := by
    intro hb
    obtain rfl := h.dead hb
    exact h'.dead hb

theorem alive (h : b.Becomes c) (hc : c.isAlive = true) : b.isAlive = true := by
  cases hb : b.isAlive with
  | true => rfl
  | false => rw [← hb, ← h.dead hb, hc]

end Block.Becomes

namespace Memory

variable {m m' m'' : Memory} {id : BlockId}

/-- The second memory may come after the first. -/
structure Persists (m m' : Memory) : Prop where
  config_eq : m'.config = m.config
  clock_le : m.clock ≤ m'.clock
  freshId_le : m.freshId ≤ m'.freshId
  block : ∀ id b, m.get? id = some b → ∃ b', m'.get? id = some b' ∧ b.Becomes b'
  fresh : ∀ id, m.get? id = none → (m'.get? id).isSome = true → m.freshId ≤ id

namespace Persists

theorem refl (m : Memory) : m.Persists m where
  config_eq := rfl
  clock_le := Nat.le_refl _
  freshId_le := Nat.le_refl _
  block := fun _ b hb => ⟨b, hb, .refl b⟩
  fresh := fun _ hn hs => by simp [hn] at hs

theorem trans (h : m.Persists m') (h' : m'.Persists m'') : m.Persists m'' where
  config_eq := h'.config_eq.trans h.config_eq
  clock_le := Nat.le_trans h.clock_le h'.clock_le
  freshId_le := Nat.le_trans h.freshId_le h'.freshId_le
  block := by
    intro id b hb
    obtain ⟨b', hb', hbb'⟩ := h.block id b hb
    obtain ⟨b'', hb'', hbb''⟩ := h'.block id b' hb'
    exact ⟨b'', hb'', hbb'.trans hbb''⟩
  fresh := by
    intro id hn hs
    cases hm : m'.get? id with
    | none => exact Nat.le_trans h.freshId_le (h'.fresh id hm hs)
    | some b => exact h.fresh id hn (by simp [hm])

theorem isSome (h : m.Persists m') {id : BlockId} (hs : (m.get? id).isSome = true) :
    (m'.get? id).isSome = true := by
  obtain ⟨b, hb⟩ := Option.isSome_iff_exists.1 hs
  obtain ⟨b', hb', -⟩ := h.block id b hb
  simp [hb']

end Persists

/-! ## Changing a block in its place -/

theorem BlockWf.mono {b : Block} (h : m.BlockWf id b) (hconfig : m'.config = m.config)
    (hclock : m.clock ≤ m'.clock) (hfresh : m.freshId ≤ m'.freshId) : m'.BlockWf id b where
  id_eq := h.id_eq
  id_lt := Nat.lt_of_lt_of_le h.id_lt hfresh
  size_ne_zero := h.size_ne_zero
  length_bytes := h.length_bytes
  base_mem := h.base_mem
  fits := by
    intro hb a ha
    rw [fits_iff, hconfig]
    exact fits_iff.1 (h.fits hb a ha)
  born_lt := Nat.lt_of_lt_of_le h.born_lt hclock
  died_lt := fun d hd => ⟨(h.died_lt d hd).1, Nat.lt_of_lt_of_le (h.died_lt d hd).2 hclock⟩

/-- A block that becomes another one under its number keeps the invariant. -/
theorem Wf.replace {b b' : Block} (h : m.Wf) (hb : m.get? id = some b) (hbb' : b.Becomes b')
    (hget : ∀ i, m'.get? i = if i = id then some b' else m.get? i)
    (hconfig : m'.config = m.config) (hclock : m.clock ≤ m'.clock)
    (hfresh : m.freshId ≤ m'.freshId) (hwf : m'.BlockWf id b') : m'.Wf := by
  have hold : ∀ i c, m'.get? i = some c → ∃ d, m.get? i = some d ∧ d.Becomes c := by
    intro i c hc
    rw [hget] at hc
    split at hc
    · next hi =>
      subst hi
      obtain rfl := Option.some.inj hc
      exact ⟨b, hb, hbb'⟩
    · exact ⟨c, hc, .refl c⟩
  constructor
  · intro i c hc
    rw [hget] at hc
    split at hc
    · next hi =>
      subst hi
      obtain rfl := Option.some.inj hc
      exact hwf
    · exact (h.block i c hc).mono hconfig hclock hfresh
  · intro i j c d hc hcl hd hdl x hx y hy hne
    obtain ⟨c', hc', hcc⟩ := hold i c hc
    obtain ⟨d', hd', hdd⟩ := hold j d hd
    rw [hcc.size_eq, hdd.size_eq]
    rw [hcc.candidates_eq] at hx
    rw [hdd.candidates_eq] at hy
    exact h.apart i j c' d' hc' (hcc.alive hcl) hd' (hdd.alive hdl) x hx y hy hne

theorem Persists.of_replace {b b' : Block} (hb : m.get? id = some b) (hbb' : b.Becomes b')
    (hget : ∀ i, m'.get? i = if i = id then some b' else m.get? i)
    (hconfig : m'.config = m.config) (hclock : m.clock ≤ m'.clock)
    (hfresh : m.freshId ≤ m'.freshId) : m.Persists m' where
  config_eq := hconfig
  clock_le := hclock
  freshId_le := hfresh
  block := by
    intro i c hc
    rw [hget]
    split
    · next hi =>
      subst hi
      obtain rfl : b = c := Option.some.inj (hb.symm.trans hc)
      exact ⟨b', rfl, hbb'⟩
    · exact ⟨c, hc, .refl c⟩
  fresh := by
    intro i hn hs
    rw [hget] at hs
    split at hs
    · next hi =>
      subst hi
      simp [hb] at hn
    · simp [hn] at hs

/-! ## Writing -/

theorem length_overwrite {old new : List Byte} {offset : Nat}
    (h : offset + new.length ≤ old.length) : (overwrite old offset new).length = old.length := by
  simp only [overwrite, List.length_append, List.length_take, List.length_drop]
  omega

theorem Block.becomes_bytes {b : Block} (hb : b.isAlive = true) (bytes : List Byte) :
    b.Becomes { b with bytes } :=
  ⟨rfl, rfl, rfl, rfl, rfl, rfl, rfl, fun hd => by simp [hb] at hd⟩

theorem persists_write {offset : Nat} {bytes : List Byte} (h : m.write id offset bytes = .ok m') :
    m.Persists m' := by
  obtain ⟨b, hb, halive, -, rfl⟩ := write_eq_ok_iff.1 h
  exact .of_replace hb (Block.becomes_bytes halive _) (fun _ => Table.find?_insert _ _ _ _) rfl
    (Nat.le_refl _) (Nat.le_refl _)

theorem Wf.write {offset : Nat} {bytes : List Byte} (hwf : m.Wf)
    (h : m.write id offset bytes = .ok m') : m'.Wf := by
  obtain ⟨b, hb, halive, hle, rfl⟩ := write_eq_ok_iff.1 h
  have hbwf := hwf.block id b hb
  refine hwf.replace hb (Block.becomes_bytes halive _) (fun _ => Table.find?_insert _ _ _ _) rfl
    (Nat.le_refl _) (Nat.le_refl _) ?_
  refine ⟨hbwf.id_eq, hbwf.id_lt, hbwf.size_ne_zero, ?_, hbwf.base_mem, hbwf.fits, hbwf.born_lt,
    hbwf.died_lt⟩
  rw [length_overwrite (by rw [hbwf.length_bytes]; exact hle), hbwf.length_bytes]

/-! ## Releasing -/

theorem Block.becomes_died {b : Block} (hb : b.isAlive = true) (t : Tick) :
    b.Becomes { b with died := some t } :=
  ⟨rfl, rfl, rfl, rfl, rfl, rfl, rfl, fun hd => by simp [hb] at hd⟩

theorem persists_free (h : m.free id = .ok m') : m.Persists m' := by
  obtain ⟨b, hb, halive, rfl⟩ := free_eq_ok_iff.1 h
  exact .of_replace hb (Block.becomes_died halive _) (fun _ => Table.find?_insert _ _ _ _) rfl
    (Nat.le_succ _) (Nat.le_refl _)

theorem Wf.free (hwf : m.Wf) (h : m.free id = .ok m') : m'.Wf := by
  obtain ⟨b, hb, halive, rfl⟩ := free_eq_ok_iff.1 h
  have hbwf := hwf.block id b hb
  refine hwf.replace hb (Block.becomes_died halive _) (fun _ => Table.find?_insert _ _ _ _) rfl
    (Nat.le_succ _) (Nat.le_refl _) ?_
  refine ⟨hbwf.id_eq, hbwf.id_lt, hbwf.size_ne_zero, hbwf.length_bytes, hbwf.base_mem,
    fun hd => by simp [Block.isAlive] at hd, Nat.lt_succ_of_lt hbwf.born_lt, fun d hd => ?_⟩
  obtain rfl := Option.some.inj hd
  exact ⟨Nat.le_of_lt hbwf.born_lt, Nat.lt_succ_self _⟩

/-! ## Releasing several blocks -/

theorem freeAll_cons {ids : List BlockId} (h : (id :: ids).foldlM Memory.free m = .ok m'') :
    ∃ m', m.free id = .ok m' ∧ ids.foldlM Memory.free m' = .ok m'' := by
  rw [List.foldlM_cons] at h
  cases hf : m.free id with
  | error e => rw [hf] at h; simp [bind, Except.bind] at h
  | ok m' => rw [hf] at h; exact ⟨m', rfl, h⟩

theorem persists_freeAll {ids : List BlockId} (h : ids.foldlM Memory.free m = .ok m') :
    m.Persists m' := by
  induction ids generalizing m with
  | nil =>
    obtain rfl := Except.ok.inj h
    exact .refl m
  | cons id ids ih =>
    obtain ⟨m₁, h₁, h⟩ := freeAll_cons h
    exact (persists_free h₁).trans (ih h)

theorem Wf.freeAll {ids : List BlockId} (hwf : m.Wf) (h : ids.foldlM Memory.free m = .ok m') :
    m'.Wf := by
  induction ids generalizing m with
  | nil =>
    obtain rfl := Except.ok.inj h
    exact hwf
  | cons id ids ih =>
    obtain ⟨m₁, h₁, h⟩ := freeAll_cons h
    exact ih (hwf.free h₁) h

/-! ## Allocating -/

section Viable

variable {size align : Nat}

theorem mem_viable {taken : List AddrRange} {as : List Nat} {a : Nat}
    (h : a ∈ m.viable size align taken as) :
    a ∈ as ∧ m.fits ⟨a, size⟩ align = true ∧ ∀ r ∈ taken, (AddrRange.mk a size).Apart r := by
  induction as generalizing taken with
  | nil => simp [viable] at h
  | cons x rest ih =>
    unfold viable at h
    simp only [Bool.and_eq_true] at h
    split at h
    · next hx =>
      rcases List.mem_cons.1 h with rfl | h
      · exact ⟨List.mem_cons_self, hx.1, AddrRange.disjointFrom_iff.1 hx.2⟩
      · obtain ⟨h1, h2, h3⟩ := ih h
        exact ⟨List.mem_cons_of_mem _ h1, h2, fun r hr => h3 r (List.mem_cons_of_mem _ hr)⟩
    · obtain ⟨h1, h2, h3⟩ := ih h
      exact ⟨List.mem_cons_of_mem _ h1, h2, h3⟩

theorem pairwise_viable (taken : List AddrRange) (as : List Nat) :
    (m.viable size align taken as).Pairwise
      fun a c => (AddrRange.mk a size).Apart ⟨c, size⟩ := by
  induction as generalizing taken with
  | nil => exact .nil
  | cons x rest ih =>
    unfold viable
    simp only
    split
    · refine List.pairwise_cons.2 ⟨fun a ha => ?_, ih _⟩
      exact ((mem_viable ha).2.2 _ List.mem_cons_self).symm
    · exact ih _

end Viable

variable {req : AllocRequest} {base : Nat}

theorem mem_places {a : Nat} (h : a ∈ m.places req) : a ∈ req.candidates ∧
    m.fits ⟨a, req.size⟩ req.align = true ∧
      ∀ r ∈ m.reservedRanges, (AddrRange.mk a req.size).Apart r := mem_viable h

/-- Two places an allocation keeps are apart. -/
theorem apart_places {x y : Nat} (hx : x ∈ m.places req) (hy : y ∈ m.places req) (hne : x ≠ y) :
    (AddrRange.mk x req.size).Apart ⟨y, req.size⟩ := by
  have hsym : Std.Symm fun a c : Nat => (AddrRange.mk a req.size).Apart ⟨c, req.size⟩ :=
    ⟨fun _ _ => AddrRange.Apart.symm⟩
  exact (pairwise_viable _ _).forall hx hy hne

/-- What an allocation adds. -/
theorem get?_allocate (h : m.allocate req = .ok (id, m')) : id = m.freshId ∧
    ∃ base ∈ m.places req, (m.places req)[req.pick]? = some base ∧
      ∀ i, m'.get? i = if i = m.freshId then some (m.newBlock req base) else m.get? i := by
  obtain ⟨-, -, -, base, hbase, rfl, rfl⟩ := allocate_eq_ok_iff.1 h
  exact ⟨rfl, base, List.mem_of_getElem? hbase, hbase, fun _ => Table.find?_insert _ _ _ _⟩

theorem Wf.get?_freshId (hwf : m.Wf) : m.get? m.freshId = none := by
  cases h : m.get? m.freshId with
  | none => rfl
  | some b => exact absurd (hwf.block _ _ h).id_lt (Nat.lt_irrefl _)

theorem Wf.persists_allocate (hwf : m.Wf) (h : m.allocate req = .ok (id, m')) :
    m.Persists m' := by
  obtain ⟨-, -, -, base, hbase, rfl, rfl⟩ := allocate_eq_ok_iff.1 h
  have hnone := hwf.get?_freshId
  refine ⟨rfl, Nat.le_succ _, Nat.le_succ _, fun i b hb => ⟨b, ?_, .refl b⟩, fun i hn hs => ?_⟩
  · refine (Table.find?_insert _ _ _ _).trans (if_neg ?_ |>.trans hb)
    rintro rfl
    rw [hnone] at hb
    simp at hb
  · by_cases hi : i = m.freshId
    · exact Nat.le_of_eq hi.symm
    · have : ((m.blocks.insert m.freshId (m.newBlock req base)).find? i).isSome = true := hs
      rw [Table.find?_insert, if_neg hi] at this
      rw [show m.blocks.find? i = none from hn] at this
      simp at this

theorem Wf.allocate (hwf : m.Wf) (h : m.allocate req = .ok (id, m')) : m'.Wf := by
  have hpersists := hwf.persists_allocate h
  obtain ⟨hsize, -, hinit, base, hbase, rfl, rfl⟩ := allocate_eq_ok_iff.1 h
  have hget : ∀ i, Memory.get? { m with
      blocks := m.blocks.insert m.freshId (m.newBlock req base)
      clock := m.clock + 1
      freshId := m.freshId + 1 } i =
        if i = m.freshId then some (m.newBlock req base) else m.get? i :=
    fun _ => Table.find?_insert _ _ _ _
  -- a twin address of the new block is apart from every range reserved before
  have hnew : ∀ x ∈ (m.newBlock req base).candidates, ∀ j c, m.get? j = some c →
      c.isAlive = true → ∀ y ∈ c.candidates, (AddrRange.mk x req.size).Apart ⟨y, c.size⟩ :=
    fun x hx j c hc hcl y hy => (mem_places (AddrSet.mem_ofList.1 hx)).2.2 _
      (mem_reservedRanges_iff.2 ⟨j, c, hc, hcl, y, hy, rfl⟩)
  constructor
  · intro i b hb
    rw [hget] at hb
    split at hb
    · next hi =>
      subst hi
      obtain rfl := Option.some.inj hb
      refine ⟨rfl, Nat.lt_succ_self _, hsize, ?_, ?_, ?_, Nat.lt_succ_self _, nofun⟩
      · cases hi : req.init with
        | none => simp [newBlock, hi]
        | some bytes => simp [newBlock, hi, hinit bytes hi]
      · exact AddrSet.mem_ofList.2 (List.mem_of_getElem? hbase)
      · exact fun _ a ha => (mem_places (AddrSet.mem_ofList.1 ha)).2.1
    · exact (hwf.block i b hb).mono rfl (Nat.le_succ _) (Nat.le_succ _)
  · intro i j b c hb hbl hc hcl x hx y hy hne
    rw [hget] at hb hc
    split at hb
    · next hi =>
      obtain rfl := Option.some.inj hb
      split at hc
      · next hj =>
        obtain rfl := Option.some.inj hc
        refine apart_places (AddrSet.mem_ofList.1 hx) (AddrSet.mem_ofList.1 hy) ?_
        exact hne.resolve_left (fun hij => hij (hi.trans hj.symm))
      · exact hnew x hx j c hc hcl y hy
    · split at hc
      · obtain rfl := Option.some.inj hc
        exact (hnew y hy i b hb hbl x hx).symm
      · exact hwf.apart i j b c hb hbl hc hcl x hx y hy hne

/-! ## The live blocks of the stack -/

/-- The block is alive and dies with its frame. -/
def LiveOnStack (m : Memory) (id : BlockId) : Prop :=
  ∃ b, m.get? id = some b ∧ b.kind = .stack ∧ b.isAlive = true

theorem liveOnStack_write {offset : Nat} {bytes : List Byte}
    (h : m.write id offset bytes = .ok m') (j : BlockId) : m'.LiveOnStack j ↔ m.LiveOnStack j := by
  obtain ⟨b, hb, -, hget⟩ := get?_write h j
  unfold LiveOnStack
  rw [hget]
  by_cases hj : j = id
  · simp [hj, hb, Block.isAlive]
  · simp [hj]

/-- Releasing a block of the heap leaves the stack as it is. -/
theorem liveOnStack_free {b : Block} (hb : m.get? id = some b) (hkind : b.kind = .heap)
    (h : m.free id = .ok m') (j : BlockId) : m'.LiveOnStack j ↔ m.LiveOnStack j := by
  obtain ⟨c, hc, -, hget⟩ := get?_free h j
  obtain rfl : b = c := Option.some.inj (hb.symm.trans hc)
  unfold LiveOnStack
  rw [hget]
  by_cases hj : j = id
  · simp [hj, hb, hkind]
  · simp [hj]

theorem Wf.liveOnStack_allocate {req : AllocRequest} (hm : m.Wf)
    (h : m.allocate req = .ok (id, m')) (j : BlockId) :
    m'.LiveOnStack j ↔ m.LiveOnStack j ∨ req.kind = .stack ∧ j = id := by
  obtain ⟨rfl, base, -, -, hget⟩ := get?_allocate h
  have hfresh : ¬m.LiveOnStack m.freshId := by
    rintro ⟨b, hb, -⟩
    rw [hm.get?_freshId] at hb
    simp at hb
  by_cases hj : j = m.freshId
  · subst hj
    have hnew : m'.LiveOnStack m.freshId ↔ req.kind = .stack := by
      unfold LiveOnStack
      rw [hget, if_pos rfl]
      simp [newBlock, Block.isAlive]
    rw [hnew]
    tauto
  · have hold : m'.LiveOnStack j ↔ m.LiveOnStack j := by
      unfold LiveOnStack
      rw [hget, if_neg hj]
    rw [hold]
    tauto

/-- After a release of several blocks, those alive are the ones that were and were not released. -/
theorem liveOnStack_freeAll {ids : List BlockId} (h : ids.foldlM Memory.free m = .ok m')
    (j : BlockId) : m'.LiveOnStack j ↔ m.LiveOnStack j ∧ j ∉ ids := by
  induction ids generalizing m with
  | nil =>
    obtain rfl := Except.ok.inj h
    simp
  | cons id ids ih =>
    obtain ⟨m₁, h₁, h⟩ := freeAll_cons h
    obtain ⟨c, hc, -, hget⟩ := get?_free h₁ j
    rw [ih h, List.mem_cons, not_or]
    unfold LiveOnStack
    rw [hget]
    by_cases hj : j = id
    · simp [hj, Block.isAlive]
    · simp [hj]

end Memory

end PointerSemantics
