import PointerSemantics.Proofs.Effects
import PointerSemantics.Proofs.Memory.Access

/-!
# What looking at memory sees after a change

An operation that only looks at memory sees of a block its place, its size, whether it is alive, and its
bytes. The first two never change, so what needs no more than them gives the same after any change
(`Memory.Persists`). The rest is carried over from one memory to another by `Memory.LiveIn`: the live
blocks of the one are alive in the other. A write keeps the live blocks in both directions, an allocation
forwards, a release backwards.
-/

namespace PointerSemantics

namespace Memory

variable {m m' : Memory} {id : BlockId} {p q : Pointer}

/-! ## Whatever the change -/

section Persists

theorem Persists.movePointer (h : m.Persists m') (hp : m.pointerWf p = true) (delta : Int)
    (inbounds : Bool) : m'.movePointer p delta inbounds = m.movePointer p delta inbounds := by
  have hwrap : ∀ i, m'.wrap i = m.wrap i := by
    intro i
    unfold wrap
    rw [h.config_eq]
  cases p with
  | null => simp only [Memory.movePointer, hwrap]
  | physical addr visited owner => simp only [Memory.movePointer, hwrap, h.config_eq]
  | logical id offset =>
    obtain ⟨b, hb⟩ := Option.isSome_iff_exists.1 (pointerWf_logical.1 hp).2
    obtain ⟨b', hb', hbb'⟩ := h.block id b hb
    simp only [Memory.movePointer, hwrap, hb, hb', hbb'.size_eq]

theorem Persists.addressOf? (h : m.Persists m') (hid : (m.get? id).isSome = true) (offset : Nat) :
    m'.addressOf? id offset = m.addressOf? id offset := by
  obtain ⟨b, hb⟩ := Option.isSome_iff_exists.1 hid
  obtain ⟨b', hb', hbb'⟩ := h.block id b hb
  simp only [Memory.addressOf?, hb, hb', Option.map_some, hbb'.base_eq, h.config_eq]

theorem Persists.address (h : m.Persists m') (hp : m.pointerWf p = true) :
    m'.address p = m.address p := by
  cases p with
  | null => rfl
  | physical addr visited owner => rfl
  | logical id offset =>
    simp only [Memory.address, h.addressOf? (pointerWf_logical.1 hp).2]

theorem Persists.pointerDistance (h : m.Persists m') (hp : m.pointerWf p = true)
    (hq : m.pointerWf q = true) (size : Nat) :
    m'.pointerDistance p q size = m.pointerDistance p q size := by
  unfold Memory.pointerDistance
  rw [h.address hp, h.address hq]

/-- A well-formed pointer has an address. -/
theorem exists_address (hp : m.pointerWf p = true) : ∃ addr, m.address p = .ok addr := by
  cases p with
  | null => exact ⟨_, rfl⟩
  | physical addr visited owner => exact ⟨_, rfl⟩
  | logical id offset =>
    obtain ⟨b, hb⟩ := Option.isSome_iff_exists.1 (pointerWf_logical.1 hp).2
    simp [Memory.address, Memory.addressOf?, hb]

end Persists

/-! ## Live blocks -/

/-- If the block is alive in the first memory, it is alive at the same place in the second. -/
def KeepsLive (m m' : Memory) (id : BlockId) : Prop :=
  ∀ b, m.get? id = some b → b.isAlive = true →
    ∃ b', m'.get? id = some b' ∧ b'.isAlive = true ∧ b'.base = b.base ∧ b'.size = b.size

/-- The live blocks of the first memory are alive in the second, at the same places. -/
structure LiveIn (m m' : Memory) : Prop where
  config_eq : m'.config = m.config
  block : ∀ id, m.KeepsLive m' id

/-- What is alive now and was there before was alive before. -/
theorem Persists.keepsLive (h : m.Persists m') (hid : (m.get? id).isSome = true) :
    m'.KeepsLive m id := by
  intro b' hb' hlive
  obtain ⟨b, hb⟩ := Option.isSome_iff_exists.1 hid
  obtain ⟨c, hc, hbc⟩ := h.block id b hb
  obtain rfl := Option.some.inj (hb'.symm.trans hc)
  exact ⟨b, hb, hbc.alive hlive, hbc.base_eq.symm, hbc.size_eq.symm⟩

theorem isSome_of_block? (hp : m.pointerWf p = true) (hid : p.block? = some id) :
    (m.get? id).isSome = true := by
  cases p with
  | null => simp [Pointer.block?] at hid
  | logical i offset =>
    obtain rfl := Option.some.inj hid
    exact (pointerWf_logical.1 hp).2
  | physical addr visited owner => exact (pointerWf_physical.1 hp).2.2 id hid

/-- The block of a pointer that was well-formed before was there before. -/
theorem Persists.keepsLive_of_block? (h : m.Persists m') (hp : m.pointerWf p = true)
    (hid : p.block? = some id) : m'.KeepsLive m id :=
  h.keepsLive (isSome_of_block? hp hid)

theorem liveIn_refl (m : Memory) : m.LiveIn m := ⟨rfl, fun _ b hb hlive => ⟨b, hb, hlive, rfl, rfl⟩⟩

theorem liveIn_write {offset : Nat} {bytes : List Byte} (h : m.write id offset bytes = .ok m') :
    m.LiveIn m' := by
  refine ⟨(persists_write h).config_eq, fun i b hb hlive => ?_⟩
  obtain ⟨c, hc, -, hget⟩ := get?_write h i
  rw [hget]
  by_cases hi : i = id
  · subst hi
    obtain rfl := Option.some.inj (hb.symm.trans hc)
    exact ⟨_, if_pos rfl, hlive, rfl, rfl⟩
  · exact ⟨b, (if_neg hi).trans hb, hlive, rfl, rfl⟩

theorem liveIn_of_write {offset : Nat} {bytes : List Byte} (h : m.write id offset bytes = .ok m') :
    m'.LiveIn m := by
  have hpersists := persists_write h
  refine ⟨hpersists.config_eq.symm, fun i b' hb' hlive => ?_⟩
  refine hpersists.keepsLive ?_ b' hb' hlive
  obtain ⟨c, hc, -, hget⟩ := get?_write h i
  by_cases hi : i = id
  · rw [hi, hc]
    rfl
  · rw [hget, if_neg hi] at hb'
    rw [hb']
    rfl

theorem Wf.liveIn_allocate {req : AllocRequest} (hm : m.Wf) (h : m.allocate req = .ok (id, m')) :
    m.LiveIn m' := by
  refine ⟨(hm.persists_allocate h).config_eq, fun i b hb hlive => ?_⟩
  obtain ⟨-, base, -, -, hget⟩ := get?_allocate h
  rw [hget, if_neg, hb]
  · exact ⟨b, rfl, hlive, rfl, rfl⟩
  · rintro rfl
    rw [hm.get?_freshId] at hb
    simp at hb

theorem liveIn_of_free (h : m.free id = .ok m') : m'.LiveIn m := by
  have hpersists := persists_free h
  refine ⟨hpersists.config_eq.symm, fun i b' hb' hlive => ?_⟩
  refine hpersists.keepsLive ?_ b' hb' hlive
  obtain ⟨c, hc, -, hget⟩ := get?_free h i
  by_cases hi : i = id
  · rw [hi, hc]
    rfl
  · rw [hget, if_neg hi] at hb'
    rw [hb']
    rfl

/-! ## Comparisons -/

theorem KeepsLive.liveInBounds (h : m.KeepsLive m' id) {offset : Nat}
    (hin : m.liveInBounds id offset = true) : m'.liveInBounds id offset = true := by
  unfold Memory.liveInBounds at hin ⊢
  simp only [Option.any_eq_true, Bool.and_eq_true] at hin ⊢
  obtain ⟨b, hb, hlive, hoffset⟩ := hin
  obtain ⟨b', hb', hlive', -, hsize⟩ := h b hb hlive
  refine ⟨b', hb', hlive', ?_⟩
  unfold Block.inBounds at hoffset ⊢
  rwa [hsize]

theorem KeepsLive.liveAddress? (h : m.KeepsLive m' id) (hconfig : m'.config = m.config)
    {offset addr : Nat} (ha : m.liveAddress? id offset = some addr) :
    m'.liveAddress? id offset = some addr := by
  unfold Memory.liveAddress? at ha ⊢
  split at ha
  · next hany =>
    obtain ⟨b, hb, hlive⟩ := (Option.any_eq_true _ _).1 hany
    obtain ⟨b', hb', hlive', hbase, -⟩ := h b hb hlive
    rw [if_pos ((Option.any_eq_true _ _).2 ⟨b', hb', hlive'⟩), ← ha]
    simp only [Memory.addressOf?, hb, hb', Option.map_some, hbase, hconfig]
  · simp at ha

/-- A comparison that is decided stays so while the blocks of the pointers live on. -/
theorem ptrEq?_mono (hconfig : m'.config = m.config) (hp : ∀ id, p.block? = some id → m.KeepsLive m' id)
    (hq : ∀ id, q.block? = some id → m.KeepsLive m' id) {r : Bool} (h : m.ptrEq? p q = some r) :
    m'.ptrEq? p q = some r := by
  cases p with
  | null =>
    cases q with
    | null => exact h
    | physical addr visited owner => exact h
    | logical id offset =>
      simp only [ptrEq?] at h ⊢
      split at h
      · next hin => rwa [if_pos ((hq id rfl).liveInBounds hin)]
      · simp at h
  | physical addr visited owner =>
    cases q with
    | null => exact h
    | physical addr visited owner => exact h
    | logical id offset =>
      obtain ⟨a, ha, rfl⟩ := Option.map_eq_some_iff.1 h
      exact Option.map_eq_some_iff.2 ⟨a, (hq id rfl).liveAddress? hconfig ha, rfl⟩
  | logical i offset =>
    cases q with
    | null =>
      simp only [ptrEq?] at h ⊢
      split at h
      · next hin => rwa [if_pos ((hp i rfl).liveInBounds hin)]
      · simp at h
    | physical addr visited owner =>
      obtain ⟨a, ha, rfl⟩ := Option.map_eq_some_iff.1 h
      exact Option.map_eq_some_iff.2 ⟨a, (hp i rfl).liveAddress? hconfig ha, rfl⟩
    | logical j offset' =>
      simp only [ptrEq?] at h ⊢
      by_cases hij : i = j
      · rwa [if_pos hij] at h ⊢
      · rw [if_neg hij] at h ⊢
        split at h
        · next hin =>
          obtain ⟨hi, hj⟩ := (Bool.and_eq_true _ _).mp hin
          rwa [if_pos]
          rw [(hp i rfl).liveInBounds hi, (hq j rfl).liveInBounds hj]
          rfl
        · simp at h

theorem ptrLe?_mono (hconfig : m'.config = m.config) (hp : ∀ id, p.block? = some id → m.KeepsLive m' id)
    (hq : ∀ id, q.block? = some id → m.KeepsLive m' id) {r : Bool} (h : m.ptrLe? p q = some r) :
    m'.ptrLe? p q = some r := by
  cases p with
  | null => exact h
  | physical addr visited owner =>
    cases q with
    | null => exact h
    | physical addr visited owner => exact h
    | logical id offset =>
      obtain ⟨a, ha, rfl⟩ := Option.map_eq_some_iff.1 h
      exact Option.map_eq_some_iff.2 ⟨a, (hq id rfl).liveAddress? hconfig ha, rfl⟩
  | logical i offset =>
    cases q with
    | null =>
      simp only [ptrLe?] at h ⊢
      split at h
      · next hin => rwa [if_pos ((hp i rfl).liveInBounds hin)]
      · simp at h
    | physical addr visited owner =>
      obtain ⟨a, ha, rfl⟩ := Option.map_eq_some_iff.1 h
      exact Option.map_eq_some_iff.2 ⟨a, (hp i rfl).liveAddress? hconfig ha, rfl⟩
    | logical j offset' => exact h

theorem ptrHolds?_mono (hconfig : m'.config = m.config)
    (hp : ∀ id, p.block? = some id → m.KeepsLive m' id)
    (hq : ∀ id, q.block? = some id → m.KeepsLive m' id) {pred : Pred} {r : Bool}
    (h : m.ptrHolds? pred p q = some r) : m'.ptrHolds? pred p q = some r := by
  have hnot : ∀ {x y : Option Bool}, (∀ r, x = some r → y = some r) → x.map not = some r →
      y.map not = some r := by
    intro x y hxy hx
    obtain ⟨s, hs, hr⟩ := Option.map_eq_some_iff.1 hx
    exact Option.map_eq_some_iff.2 ⟨s, hxy s hs, hr⟩
  cases pred with
  | eq => exact ptrEq?_mono hconfig hp hq h
  | ne => exact hnot (fun _ => ptrEq?_mono hconfig hp hq) h
  | ule => exact ptrLe?_mono hconfig hp hq h
  | uge => exact ptrLe?_mono hconfig hq hp h
  | ult => exact hnot (fun _ => ptrLe?_mono hconfig hq hp) h
  | ugt => exact hnot (fun _ => ptrLe?_mono hconfig hp hq) h
  | slt | sle | sgt | sge => simp [ptrHolds?] at h

/-! ## Addresses and accesses -/

section Access

variable {addr len : Nat}

theorem LiveIn.liveBlockContaining? (h : m.LiveIn m') (hm : m.Usable) (hm' : m'.Usable)
    (hid : m.liveBlockContaining? addr len = some id) :
    m'.liveBlockContaining? addr len = some id := by
  obtain ⟨b, hb, hlive, hcovers⟩ := hm.liveBlockContaining?_eq_some_iff.1 hid
  obtain ⟨b', hb', hlive', hbase, hsize⟩ := h.block id b hb hlive
  refine hm'.liveBlockContaining?_eq_some_iff.2 ⟨b', hb', hlive', ?_⟩
  unfold Block.Covers at hcovers ⊢
  rwa [hbase, hsize]

theorem LiveIn.resolve (h : m.LiveIn m') (hm : m.Usable) (hm' : m'.Usable) {offset : Nat}
    (hr : m.resolve p len = .ok (id, offset)) : m'.resolve p len = .ok (id, offset) := by
  obtain ⟨b, hb, hlive, hreaches⟩ := hm.resolve_eq_ok_iff.1 hr
  obtain ⟨b', hb', hlive', hbase, hsize⟩ := h.block id b hb hlive
  refine hm'.resolve_eq_ok_iff.2 ⟨b', hb', hlive', ?_⟩
  cases p with
  | null => exact hreaches
  | logical i o =>
    unfold Block.Reaches at hreaches ⊢
    rwa [hsize]
  | physical a visited owner =>
    unfold Block.Reaches Block.Covers at hreaches ⊢
    rwa [hbase, hsize]

/-- A cast finds the same block if the same blocks are alive. -/
theorem LiveIn.pointerOfInt (h : m.LiveIn m') (h' : m'.LiveIn m) (hm : m.Usable) (hm' : m'.Usable)
    (n : Nat) : m'.pointerOfInt n = m.pointerOfInt n := by
  have hblock : ∀ a, m'.liveBlockContaining? a 1 = m.liveBlockContaining? a 1 := by
    intro a
    ext id
    exact ⟨h'.liveBlockContaining? hm' hm, h.liveBlockContaining? hm hm'⟩
  unfold Memory.pointerOfInt
  simp only [h.config_eq, hblock]

end Access

/-! ## Values in memory -/

/-- The value of a type at a pointer. -/
def fetchValue (m : Memory) (ty : Ty) (p : Pointer) : Exec Value := do
  let (block, offset) ← m.resolve p ty.size
  let bytes ← Exec.ofMemory (m.read block offset ty.size)
  return m.loaded (Value.decode bytes ty)

/-- Memory with a value put at a pointer. -/
def storeValue (m : Memory) (ty : Ty) (v : Value) (p : Pointer) : Exec Memory := do
  let (block, offset) ← m.resolve p ty.size
  Exec.ofMemory (m.write block offset (v.encode ty))

section Values

variable {ty : Ty} {v : Value}

/-- A fetch through a well-formed pointer yields a value or goes wrong. -/
theorem Usable.fetchValue_cases (h : m.Usable) (hp : m.pointerWf p = true) (ty : Ty) :
    (∃ v, m.fetchValue ty p = .ok v) ∨ ∃ ub, m.fetchValue ty p = Exec.wrong ub := by
  rcases h.resolve_cases hp ty.size with ⟨id, offset, hr⟩ | ⟨ub, hr⟩
  · obtain ⟨b, hb, hlive, hreaches⟩ := h.resolve_eq_ok_iff.1 hr
    have hread : m.read id offset ty.size = .ok ((b.bytes.drop offset).take ty.size) :=
      read_eq_ok_iff.2 ⟨b, hb, hlive, hreaches.in_bounds, rfl⟩
    refine .inl ⟨m.loaded (Value.decode ((b.bytes.drop offset).take ty.size) ty), ?_⟩
    unfold fetchValue
    rw [hr]
    show Exec.ofMemory (m.read id offset ty.size) >>= _ = _
    rw [hread]
    rfl
  · refine .inr ⟨ub, ?_⟩
    unfold fetchValue
    rw [hr]
    rfl

/-- What is fetched from one memory is fetched from the other if its live blocks are there with the same
bytes. -/
theorem LiveIn.fetchValue (h : m.LiveIn m') (hm : m.Usable) (hm' : m'.Usable)
    (hread : ∀ id offset len bytes, m.read id offset len = .ok bytes →
      m'.read id offset len = .ok bytes)
    (hv : m.fetchValue ty p = .ok v) : m'.fetchValue ty p = .ok v := by
  obtain ⟨⟨id, offset⟩, hr, hv⟩ := Exec.bind_eq_ok_iff.1 hv
  obtain ⟨bytes, hbytes, hv⟩ := Exec.bind_eq_ok_iff.1 hv
  unfold Memory.fetchValue
  rw [h.resolve hm hm' hr]
  show Exec.ofMemory (m'.read id offset ty.size) >>= _ = _
  rw [hread _ _ _ _ (Exec.ofMemory_eq_ok_iff.1 hbytes)]
  show Except.ok (m'.loaded _) = _
  rw [loaded_congr h.config_eq]
  exact hv

/-- A store is a write to where its pointer goes. -/
theorem storeValue_eq_ok_iff : m.storeValue ty v p = .ok m' ↔
    ∃ id offset, m.resolve p ty.size = .ok (id, offset) ∧
      m.write id offset (v.encode ty) = .ok m' := by
  unfold storeValue
  simp only [Exec.bind_eq_ok_iff, Exec.ofMemory_eq_ok_iff, Prod.exists]

theorem Usable.exists_storeValue_iff (h : m.Usable) : (∃ m', m.storeValue ty v p = .ok m') ↔
    ∃ id offset, m.resolve p ty.size = .ok (id, offset) := by
  constructor
  · rintro ⟨m', hm'⟩
    obtain ⟨id, offset, hr, -⟩ := storeValue_eq_ok_iff.1 hm'
    exact ⟨id, offset, hr⟩
  · rintro ⟨id, offset, hr⟩
    obtain ⟨b, hb, hlive, hreaches⟩ := h.resolve_eq_ok_iff.1 hr
    refine ⟨_, storeValue_eq_ok_iff.2 ⟨id, offset, hr, write_eq_ok_iff.2 ⟨b, hb, hlive, ?_, rfl⟩⟩⟩
    rw [Value.length_encode]
    exact hreaches.in_bounds

theorem Usable.storeValue_cases (h : m.Usable) (hp : m.pointerWf p = true) (ty : Ty) (v : Value) :
    (∃ m', m.storeValue ty v p = .ok m') ∨ ∃ ub, m.storeValue ty v p = Exec.wrong ub := by
  rcases h.resolve_cases hp ty.size with ⟨id, offset, hr⟩ | ⟨ub, hr⟩
  · exact .inl (h.exists_storeValue_iff.2 ⟨id, offset, hr⟩)
  · refine .inr ⟨ub, ?_⟩
    unfold storeValue
    rw [hr]
    rfl

theorem read_of_free {offset len : Nat} {bytes : List Byte} {i : BlockId} (h : m.free i = .ok m')
    (hr : m'.read id offset len = .ok bytes) : m.read id offset len = .ok bytes := by
  obtain ⟨c, -, -, hget⟩ := get?_free h id
  by_cases hid : id = i
  · obtain ⟨b, hb, hlive, -⟩ := read_eq_ok_iff.1 hr
    rw [hget, if_pos hid] at hb
    obtain rfl := Option.some.inj hb
    simp [Block.isAlive] at hlive
  · rwa [read_congr (hget.trans (if_neg hid))] at hr

theorem Wf.read_allocate {req : AllocRequest} {i : BlockId} (hm : m.Wf)
    (h : m.allocate req = .ok (i, m')) {offset len : Nat} {bytes : List Byte}
    (hr : m.read id offset len = .ok bytes) : m'.read id offset len = .ok bytes := by
  obtain ⟨-, base, -, -, hget⟩ := get?_allocate h
  have hold : id ≠ m.freshId := by
    rintro rfl
    obtain ⟨b, hb, -⟩ := read_eq_ok_iff.1 hr
    rw [hm.get?_freshId] at hb
    cases hb
  rwa [read_congr ((hget id).trans (if_neg hold))]

end Values

/-! ## Releases -/

/-- The block is alive and dies by a release. -/
def LiveOnHeap (m : Memory) (id : BlockId) : Prop :=
  ∃ b, m.get? id = some b ∧ b.kind = .heap ∧ b.isAlive = true

theorem LiveOnHeap.exists_freePointer (h : m.LiveOnHeap id) :
    ∃ m', m.freePointer (.logical id 0) = .ok m' ∧ m.free id = .ok m' := by
  obtain ⟨b, hb, hkind, hlive⟩ := h
  have hfree := free_eq_ok_iff.2 ⟨b, hb, hlive, rfl⟩
  refine ⟨_, ?_, hfree⟩
  unfold freePointer
  simp only [hb, hlive, hkind, hfree]
  rfl

theorem liveOnHeap_of_freePointer (h : m.freePointer p = .ok m') :
    ∃ id, p = .logical id 0 ∧ m.LiveOnHeap id ∧ m.free id = .ok m' := by
  obtain ⟨id, b, rfl, hb, hlive, hkind, hfree⟩ := freePointer_eq_ok h
  exact ⟨id, rfl, ⟨b, hb, hkind, hlive⟩, hfree⟩

/-- A release through a pointer succeeds or goes wrong. -/
theorem freePointer_cases (m : Memory) (p : Pointer) :
    (∃ m', m.freePointer p = .ok m') ∨ ∃ ub, m.freePointer p = Exec.wrong ub := by
  unfold freePointer
  cases p with
  | null => exact .inr ⟨_, rfl⟩
  | physical addr visited owner => exact .inr ⟨_, rfl⟩
  | logical id offset =>
    dsimp only
    cases hb : m.get? id with
    | none => exact .inr ⟨_, rfl⟩
    | some b =>
      dsimp only
      by_cases hlive : b.isAlive = true
      · rw [if_neg (by simp [hlive])]
        split
        · exact .inr ⟨_, rfl⟩
        · split
          · exact .inr ⟨_, rfl⟩
          · rw [free_eq_ok_iff.2 ⟨b, hb, hlive, rfl⟩]
            exact .inl ⟨_, rfl⟩
      · rw [if_pos (by simp [hlive])]
        exact .inr ⟨_, rfl⟩

theorem liveOnHeap_write {offset : Nat} {bytes : List Byte} {i : BlockId}
    (h : m.write i offset bytes = .ok m') : m'.LiveOnHeap id ↔ m.LiveOnHeap id := by
  obtain ⟨b, hb, -, hget⟩ := get?_write h id
  unfold LiveOnHeap
  rw [hget]
  by_cases hid : id = i
  · simp [hid, hb, Block.isAlive]
  · simp [hid]

theorem liveOnHeap_free {i : BlockId} (h : m.free i = .ok m') :
    m'.LiveOnHeap id ↔ m.LiveOnHeap id ∧ id ≠ i := by
  obtain ⟨b, hb, -, hget⟩ := get?_free h id
  unfold LiveOnHeap
  rw [hget]
  by_cases hid : id = i
  · simp [hid, Block.isAlive]
  · simp [hid]

end Memory

end PointerSemantics
