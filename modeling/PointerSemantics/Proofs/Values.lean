import PointerSemantics.Pointer.Move
import PointerSemantics.Byte.Codec
import PointerSemantics.WellFormed
import PointerSemantics.Proofs.Memory.Preservation

/-!
# Well-formed values

A well-formed value is one whose pointer stays inside the address space and names existing blocks, and
whose number has no bits beyond a valid width. The two halves are kept apart: pointers are kept
well-formed by every program, numbers only by programs whose constants are.

`Memory.Sound` adds to the invariant what holds of every memory a program can make: dead blocks are
smaller than the address space as well, and the pointers stored in bytes are well-formed.
-/

namespace PointerSemantics

/-! ## Types -/

namespace Value

@[simp] theorem hasType_poison (ty : Ty) : poison.hasType ty = true := rfl

@[simp] theorem hasType_ptr (p : Pointer) (ty : Ty) : (ptr p).hasType ty = ty.isPtr := by
  cases ty <;> rfl

@[simp] theorem hasType_num {w n : Nat} {ty : Ty} : (num w n).hasType ty = true ↔ ty = .int w := by
  cases ty with
  | int w' =>
    rw [Ty.int.injEq]
    exact beq_iff_eq.trans eq_comm
  | ptr t => simp [hasType]

end Value

/-! ## The two halves -/

/-- The value is no ill-formed pointer. -/
def Memory.PointsWell (m : Memory) (v : Value) : Prop := ∀ p, v = .ptr p → m.pointerWf p = true

/-- The value is no number with an invalid width or with bits beyond its width. -/
def Value.NumberWf (v : Value) : Prop :=
  ∀ w n, v = .num w n → 1 ≤ w ∧ w ≤ maxIntBits ∧ n < Word.modulus w

theorem Memory.valueWf_iff {m : Memory} {v : Value} :
    m.valueWf v = true ↔ m.PointsWell v ∧ v.NumberWf := by
  cases v with
  | num w n =>
    simp only [valueWf, Bool.and_eq_true, decide_eq_true_eq]
    constructor
    · rintro ⟨⟨h1, h2⟩, h3⟩
      refine ⟨nofun, fun w' n' h => ?_⟩
      obtain ⟨rfl, rfl⟩ := Value.num.inj h
      exact ⟨h1, h2, h3⟩
    · rintro ⟨-, h⟩
      obtain ⟨h1, h2, h3⟩ := h w n rfl
      exact ⟨⟨h1, h2⟩, h3⟩
  | ptr p =>
    constructor
    · intro h
      refine ⟨fun q hq => ?_, nofun⟩
      obtain rfl := Value.ptr.inj hq
      exact h
    · exact fun h => h.1 p rfl
  | poison => exact ⟨fun _ => ⟨nofun, nofun⟩, fun _ => rfl⟩

theorem Value.numberWf_ofBits {w n : Nat} (h1 : 1 ≤ w) (h2 : w ≤ maxIntBits) :
    (ofBits w n).NumberWf := by
  intro w' n' h
  obtain ⟨rfl, rfl⟩ := Value.num.inj h
  exact ⟨h1, h2, Word.truncate_lt w n⟩

theorem Value.numberWf_ofInt {w : Nat} {i : Int} (h1 : 1 ≤ w) (h2 : w ≤ maxIntBits) :
    (ofInt w i).NumberWf := by
  intro w' n' h
  obtain ⟨rfl, rfl⟩ := Value.num.inj h
  exact ⟨h1, h2, Word.ofInt_lt w i⟩

theorem Value.numberWf_ofBool (b : Bool) : (ofBool b).NumberWf := by
  intro w' n' h
  obtain ⟨rfl, rfl⟩ := Value.num.inj h
  refine ⟨Nat.le_refl _, by decide, ?_⟩
  cases b <;> decide

namespace Memory

variable {m m' : Memory} {p : Pointer} {v : Value}

theorem pointsWell_ptr : m.PointsWell (.ptr p) ↔ m.pointerWf p = true := by
  constructor
  · exact fun h => h p rfl
  · intro h q hq
    obtain rfl := Value.ptr.inj hq
    exact h

theorem pointerWf_logical {id : BlockId} {offset : Nat} :
    m.pointerWf (.logical id offset) = true ↔
      offset < m.config.memsz ∧ (m.get? id).isSome = true := by
  simp [pointerWf]

theorem pointerWf_physical {addr : Nat} {visited : AddrSet} {owner : Option BlockId} :
    m.pointerWf (.physical addr visited owner) = true ↔ addr < m.config.memsz ∧
      (∀ a ∈ visited, a < m.config.memsz) ∧ ∀ id, owner = some id → (m.get? id).isSome = true := by
  cases owner <;> simp [pointerWf, Membership.mem, and_assoc]

/-- What was well-formed stays so. -/
theorem Persists.pointerWf (h : m.Persists m') (hp : m.pointerWf p = true) :
    m'.pointerWf p = true := by
  cases p with
  | null => rfl
  | logical id offset =>
    rw [pointerWf_logical] at hp ⊢
    rw [h.config_eq]
    exact ⟨hp.1, h.isSome hp.2⟩
  | physical addr visited owner =>
    rw [pointerWf_physical] at hp ⊢
    rw [h.config_eq]
    exact ⟨hp.1, hp.2.1, fun id hid => h.isSome (hp.2.2 id hid)⟩

theorem Persists.pointsWell (h : m.Persists m') (hv : m.PointsWell v) : m'.PointsWell v :=
  fun p hp => h.pointerWf (hv p hp)

theorem Persists.bitWf {b : Bit} (h : m.Persists m') (hb : m.bitWf b = true) :
    m'.bitWf b = true := by
  cases b with
  | val x => rfl
  | poison => rfl
  | ptr p i =>
    simp only [Memory.bitWf, Bool.and_eq_true] at hb ⊢
    exact ⟨h.pointerWf hb.1, hb.2⟩

end Memory

/-! ## Stored bits -/

/-- Every bit stored in a block, live or dead, has the property. -/
def Memory.AllBits (P : Bit → Prop) (m : Memory) : Prop :=
  ∀ id b, m.get? id = some b → ∀ byte ∈ b.bytes, ∀ bit ∈ byte.toList, P bit

theorem Byte.eq_of_mem_poison {bit : Bit} (h : bit ∈ Byte.poison.toList) : bit = .poison := by
  have : Byte.poison.toList = List.replicate 8 .poison := by decide
  rw [this] at h
  exact List.eq_of_mem_replicate h

theorem Memory.mem_overwrite {old new : List Byte} {offset : Nat} {byte : Byte}
    (h : byte ∈ overwrite old offset new) : byte ∈ old ∨ byte ∈ new := by
  simp only [overwrite, List.mem_append] at h
  rcases h with (h | h) | h
  · exact .inl (List.mem_of_mem_take h)
  · exact .inr h
  · exact .inl (List.mem_of_mem_drop h)

namespace Memory.AllBits

variable {P Q : Bit → Prop} {m m' : Memory} {id : BlockId}

theorem imp (h : m.AllBits P) (hPQ : ∀ bit, P bit → Q bit) : m.AllBits Q :=
  fun id b hb byte hbyte bit hbit => hPQ bit (h id b hb byte hbyte bit hbit)

theorem empty (config : MemConfig) : (Memory.empty config).AllBits P := nofun

theorem write {offset : Nat} {bytes : List Byte} (h : m.AllBits P)
    (hbytes : ∀ byte ∈ bytes, ∀ bit ∈ byte.toList, P bit) (hw : m.write id offset bytes = .ok m') :
    m'.AllBits P := by
  intro i c hc byte hbyte bit hbit
  obtain ⟨b, hb, -, hget⟩ := get?_write hw i
  rw [hget] at hc
  split at hc
  · obtain rfl := Option.some.inj hc
    rcases mem_overwrite hbyte with hold | hnew
    · exact h id b hb byte hold bit hbit
    · exact hbytes byte hnew bit hbit
  · exact h i c hc byte hbyte bit hbit

theorem free (h : m.AllBits P) (hf : m.free id = .ok m') : m'.AllBits P := by
  intro i c hc byte hbyte bit hbit
  obtain ⟨b, hb, -, hget⟩ := get?_free hf i
  rw [hget] at hc
  split at hc
  · obtain rfl := Option.some.inj hc
    exact h id b hb byte hbyte bit hbit
  · exact h i c hc byte hbyte bit hbit

theorem freeAll {ids : List BlockId} (h : m.AllBits P) (hf : ids.foldlM Memory.free m = .ok m') :
    m'.AllBits P := by
  induction ids generalizing m with
  | nil =>
    obtain rfl := Except.ok.inj hf
    exact h
  | cons id ids ih =>
    obtain ⟨m₁, h₁, hf⟩ := freeAll_cons hf
    exact ih (h.free h₁) hf

/-- The bytes of a block that is allocated without contents are poison. -/
theorem allocate {req : AllocRequest} (h : m.AllBits P) (hpoison : P .poison) (hinit : req.init = none)
    (ha : m.allocate req = .ok (id, m')) : m'.AllBits P := by
  intro i c hc byte hbyte bit hbit
  obtain ⟨-, base, -, -, hget⟩ := get?_allocate ha
  rw [hget] at hc
  split at hc
  · obtain rfl := Option.some.inj hc
    simp only [newBlock, hinit, Option.getD_none] at hbyte
    rw [List.eq_of_mem_replicate hbyte] at hbit
    rwa [Byte.eq_of_mem_poison hbit]
  · exact h i c hc byte hbyte bit hbit

end Memory.AllBits

/-! ## Memories that programs make -/

/-- The invariant, together with what holds of dead blocks and of stored pointers. -/
structure Memory.Sound (m : Memory) : Prop where
  wf : m.Wf
  valid : m.config.validate = .ok ()
  bounded : ∀ id b, m.get? id = some b → b.size < m.config.memsz
  stored : ∀ id b, m.get? id = some b → ∀ byte ∈ b.bytes, ∀ bit ∈ byte.toList,
    m.bitWf bit = true

namespace Memory

variable {m m' : Memory} {id : BlockId}

/-- A block that fits behind address zero is smaller than the address space. -/
theorem size_lt_of_fits {a size align : Nat} (h : m.fits ⟨a, size⟩ align = true)
    (hvalid : m.config.validate = .ok ()) : size < m.config.memsz := by
  obtain ⟨hpos, -, hstop⟩ := fits_iff.1 h
  have hle := (AddrRange.stop_le_memsz_iff hvalid).1 hstop
  simp only at hpos hle
  omega

theorem sound_empty {config : MemConfig} (h : config.validate = .ok ()) : (empty config).Sound where
  wf := wf_empty config
  valid := h
  bounded := nofun
  stored := nofun

theorem Sound.allBits (h : m.Sound) : m.AllBits (m.bitWf · = true) := h.stored

theorem Sound.write {offset : Nat} {bytes : List Byte} (h : m.Sound)
    (hbytes : ∀ byte ∈ bytes, ∀ bit ∈ byte.toList, m.bitWf bit = true)
    (hw : m.write id offset bytes = .ok m') : m'.Sound := by
  have hpersists := persists_write hw
  refine ⟨h.wf.write hw, by rw [hpersists.config_eq]; exact h.valid, ?_,
    (h.allBits.write hbytes hw).imp fun _ => hpersists.bitWf⟩
  intro i c hc
  obtain ⟨b, hb, -, hget⟩ := get?_write hw i
  rw [hget] at hc
  rw [hpersists.config_eq]
  split at hc
  · obtain rfl := Option.some.inj hc
    exact h.bounded id b hb
  · exact h.bounded i c hc

theorem Sound.free (h : m.Sound) (hf : m.free id = .ok m') : m'.Sound := by
  have hpersists := persists_free hf
  refine ⟨h.wf.free hf, by rw [hpersists.config_eq]; exact h.valid, ?_,
    (h.allBits.free hf).imp fun _ => hpersists.bitWf⟩
  intro i c hc
  obtain ⟨b, hb, -, hget⟩ := get?_free hf i
  rw [hget] at hc
  rw [hpersists.config_eq]
  split at hc
  · obtain rfl := Option.some.inj hc
    exact h.bounded id b hb
  · exact h.bounded i c hc

theorem Sound.freeAll {ids : List BlockId} (h : m.Sound)
    (hf : ids.foldlM Memory.free m = .ok m') : m'.Sound := by
  induction ids generalizing m with
  | nil =>
    obtain rfl := Except.ok.inj hf
    exact h
  | cons id ids ih =>
    obtain ⟨m₁, h₁, hf⟩ := freeAll_cons hf
    exact ih (h.free h₁) hf

/-- Freshly allocated blocks of poison store no pointer. -/
theorem Sound.allocate {req : AllocRequest} (h : m.Sound) (hinit : req.init = none)
    (ha : m.allocate req = .ok (id, m')) : m'.Sound := by
  have hpersists := h.wf.persists_allocate ha
  refine ⟨h.wf.allocate ha, by rw [hpersists.config_eq]; exact h.valid, ?_,
    (h.allBits.allocate rfl hinit ha).imp fun _ => hpersists.bitWf⟩
  intro i c hc
  obtain ⟨-, base, hbase, -, hget⟩ := get?_allocate ha
  rw [hget] at hc
  rw [hpersists.config_eq]
  split at hc
  · obtain rfl := Option.some.inj hc
    exact size_lt_of_fits (mem_places hbase).2.1 h.valid
  · exact h.bounded i c hc

end Memory

end PointerSemantics
