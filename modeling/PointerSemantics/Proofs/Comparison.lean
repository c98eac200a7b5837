import PointerSemantics.Proofs.History
import PointerSemantics.Proofs.Memory.Addresses
import PointerSemantics.Proofs.Memory.Stability

/-!
# Comparisons that provenance decides

What provenance says of two pointers is what their addresses say: the answer to whether they are equal
always, the answer to which is lower unless both lead into one block and one of them lies so far behind
it that its address has wrapped around (`decided_comparisons_agree`).

Nor does a later state of a run decide a comparison in another way. An answer may be lost when a block
dies, and only then, and none is found that was not there before (`Config.fades_of_nstep`).
-/

namespace PointerSemantics

namespace Memory

variable {m m' : Memory} {p q : Pointer} {id : BlockId} {offset a c : Nat} {r : Bool}

/-- Both pointers lead into one block, and counted from its base one of the offsets reaches the end of the
address space, where addresses start again. -/
def ReachesEnd (m : Memory) (p q : Pointer) : Prop :=
  ∃ id b o₁ o₂, p = .logical id o₁ ∧ q = .logical id o₂ ∧ m.get? id = some b ∧
    (m.config.memsz ≤ b.base + o₁ ∨ m.config.memsz ≤ b.base + o₂)

theorem ReachesEnd.symm (h : m.ReachesEnd p q) : m.ReachesEnd q p := by
  obtain ⟨id, b, o₁, o₂, hp, hq, hb, hend⟩ := h
  exact ⟨id, b, o₂, o₁, hq, hp, hb, hend.symm⟩

/-! ## One pointer to a block -/

/-- A byte of a live block is told from null, and it does not lie there. -/
theorem Usable.eq_false_of_null (h : m.Usable) (ha : m.address (.logical id offset) = .ok a)
    (hr : (if m.liveInBounds id offset then some false else none) = some r) : r = false ∧ 0 < a := by
  split at hr
  · next hin => exact ⟨(Option.some.inj hr).symm, h.pos_of_address hin ha⟩
  · simp at hr

/-- A logical pointer is compared with an address by its own. -/
theorem eq_of_liveAddress? {f : Nat → Bool} (ha : m.address (.logical id offset) = .ok a)
    (hr : (m.liveAddress? id offset).map f = some r) : r = f a := by
  obtain ⟨x, hx, rfl⟩ := Option.map_eq_some_iff.1 hr
  rw [Except.ok.inj ((address_of_liveAddress? hx).symm.trans ha)]

/-! ## Equality -/

theorem Confined.ptrEq?_iff (h : m.Confined) (hp : m.pointerWf p = true) (hq : m.pointerWf q = true)
    (ha : m.address p = .ok a) (hc : m.address q = .ok c) (hr : m.ptrEq? p q = some r) :
    r = true ↔ a = c := by
  cases p with
  | null =>
    obtain rfl := Except.ok.inj ha
    cases q with
    | null =>
      obtain rfl := Except.ok.inj hc
      obtain rfl := Option.some.inj hr
      simp
    | logical j k =>
      obtain ⟨rfl, hpos⟩ := h.eq_false_of_null hc hr
      simpa using Nat.ne_of_lt hpos
    | physical addr visited owner =>
      obtain rfl := Except.ok.inj hc
      obtain rfl := Option.some.inj hr
      rw [beq_iff_eq]
      exact eq_comm
  | physical addr visited owner =>
    obtain rfl := Except.ok.inj ha
    cases q with
    | null =>
      obtain rfl := Except.ok.inj hc
      obtain rfl := Option.some.inj hr
      exact beq_iff_eq
    | logical j k =>
      rw [eq_of_liveAddress? hc hr, beq_iff_eq]
      exact eq_comm
    | physical addr visited owner =>
      obtain rfl := Except.ok.inj hc
      obtain rfl := Option.some.inj hr
      exact beq_iff_eq
  | logical i o =>
    cases q with
    | null =>
      obtain rfl := Except.ok.inj hc
      obtain ⟨rfl, hpos⟩ := h.eq_false_of_null ha hr
      simpa using Nat.ne_of_gt hpos
    | physical addr visited owner =>
      obtain rfl := Except.ok.inj hc
      rw [eq_of_liveAddress? ha hr]
      exact beq_iff_eq
    | logical j k =>
      obtain ⟨ho, hi⟩ := pointerWf_logical.1 hp
      obtain ⟨hk, -⟩ := pointerWf_logical.1 hq
      simp only [ptrEq?] at hr
      split at hr
      · next hij =>
        -- the offsets are what is compared, whether the block is alive or not
        subst hij
        obtain rfl := Option.some.inj hr
        rw [beq_iff_eq]
        constructor
        · rintro rfl
          exact Except.ok.inj (ha.symm.trans hc)
        · rintro rfl
          exact h.offset_eq hi ho hk ha hc
      · next hij =>
        split at hr
        · next hin =>
          obtain ⟨hin₁, hin₂⟩ := (Bool.and_eq_true _ _).mp hin
          obtain rfl := Option.some.inj hr
          simp only [Bool.false_eq_true, false_iff]
          rintro rfl
          exact hij (h.eq_of_address_eq hin₁ hin₂ ha hc)
        · simp at hr

/-- Whether two pointers are equal is told if those into blocks are to bytes of live blocks. -/
theorem isSome_ptrEq? (hbytes : ∀ id offset, p = .logical id offset ∨ q = .logical id offset →
    m.liveInBounds id offset = true) : (m.ptrEq? p q).isSome = true := by
  cases p with
  | null =>
    cases q with
    | null | physical => rfl
    | logical j k => simp [ptrEq?, hbytes j k (.inr rfl)]
  | physical addr visited owner =>
    cases q with
    | null | physical => rfl
    | logical j k =>
      rw [ptrEq?, Option.isSome_map]
      exact isSome_liveAddress? (hbytes j k (.inr rfl))
  | logical i o =>
    cases q with
    | null => simp [ptrEq?, hbytes i o (.inl rfl)]
    | physical addr visited owner =>
      rw [ptrEq?, Option.isSome_map]
      exact isSome_liveAddress? (hbytes i o (.inl rfl))
    | logical j k =>
      rw [ptrEq?]
      split
      · rfl
      · simp [hbytes i o (.inl rfl), hbytes j k (.inr rfl)]

/-! ## Order -/

theorem Confined.ptrLe?_iff (h : m.Confined) (hp : m.pointerWf p = true) (hq : m.pointerWf q = true)
    (hend : ¬m.ReachesEnd p q) (ha : m.address p = .ok a) (hc : m.address q = .ok c)
    (hr : m.ptrLe? p q = some r) : r = true ↔ a ≤ c := by
  cases p with
  | null =>
    obtain rfl := Except.ok.inj ha
    obtain rfl := Option.some.inj hr
    simp
  | physical addr visited owner =>
    obtain rfl := Except.ok.inj ha
    cases q with
    | null =>
      obtain rfl := Except.ok.inj hc
      obtain rfl := Option.some.inj hr
      rw [beq_iff_eq, Nat.le_zero]
    | logical j k => rw [eq_of_liveAddress? hc hr, decide_eq_true_eq]
    | physical addr visited owner =>
      obtain rfl := Except.ok.inj hc
      obtain rfl := Option.some.inj hr
      exact decide_eq_true_iff
  | logical i o =>
    cases q with
    | null =>
      obtain rfl := Except.ok.inj hc
      obtain ⟨rfl, hpos⟩ := h.eq_false_of_null ha hr
      simpa using Nat.ne_of_gt hpos
    | physical addr visited owner =>
      obtain rfl := Except.ok.inj hc
      rw [eq_of_liveAddress? ha hr, decide_eq_true_eq]
    | logical j k =>
      obtain ⟨ho, hi⟩ := pointerWf_logical.1 hp
      obtain ⟨hk, -⟩ := pointerWf_logical.1 hq
      simp only [ptrLe?] at hr
      split at hr
      · next hij =>
        subst hij
        obtain rfl := Option.some.inj hr
        obtain ⟨b, hb⟩ := Option.isSome_iff_exists.1 hi
        -- below the end of the address space addresses are in the order of the offsets
        have ho' : b.base + o < m.config.memsz :=
          Nat.lt_of_not_le fun hle => hend ⟨i, b, o, k, rfl, rfl, hb, .inl hle⟩
        have hk' : b.base + k < m.config.memsz :=
          Nat.lt_of_not_le fun hle => hend ⟨i, b, o, k, rfl, rfl, hb, .inr hle⟩
        rw [h.address_eq hb ho, Nat.mod_eq_of_lt ho'] at ha
        rw [h.address_eq hb hk, Nat.mod_eq_of_lt hk'] at hc
        obtain rfl := Except.ok.inj ha
        obtain rfl := Except.ok.inj hc
        rw [decide_eq_true_eq, Nat.add_le_add_iff_left]
      · simp at hr

/-! ## Predicates -/

/-- A predicate that provenance decides holds of the addresses as numbers. -/
theorem Confined.ptrHolds?_eq (h : m.Confined) (hp : m.pointerWf p = true) (hq : m.pointerWf q = true)
    (hend : ¬m.ReachesEnd p q) (ha : m.address p = .ok a) (hc : m.address q = .ok c) {pred : Pred}
    (hr : m.ptrHolds? pred p q = some r) : r = pred.holds maxIntBits a c := by
  have heq : ∀ s, m.ptrEq? p q = some s → (s = true ↔ a = c) := fun s => h.ptrEq?_iff hp hq ha hc
  have hle : ∀ s, m.ptrLe? p q = some s → (s = true ↔ a ≤ c) := fun s => h.ptrLe?_iff hp hq hend ha hc
  have hge : ∀ s, m.ptrLe? q p = some s → (s = true ↔ c ≤ a) :=
    fun s => h.ptrLe?_iff hq hp (fun h' => hend h'.symm) hc ha
  rw [Bool.eq_iff_iff]
  cases pred with
  | eq => simpa [Pred.holds] using heq r hr
  | ule => simpa [Pred.holds] using hle r hr
  | uge => simpa [Pred.holds] using hge r hr
  | ne =>
    obtain ⟨s, hs, rfl⟩ := Option.map_eq_some_iff.1 hr
    simpa [Pred.holds] using not_congr (heq s hs)
  | ult =>
    obtain ⟨s, hs, rfl⟩ := Option.map_eq_some_iff.1 hr
    simpa [Pred.holds] using not_congr (hge s hs)
  | ugt =>
    obtain ⟨s, hs, rfl⟩ := Option.map_eq_some_iff.1 hr
    simpa [Pred.holds] using not_congr (hle s hs)
  | slt | sle | sgt | sge => simp [ptrHolds?] at hr

end Memory

open Memory

/-- The result of comparing pointers without a question is the predicate that provenance decides. -/
theorem comparison_ptr_eq_ok_some_iff {m : Memory} {pred : Pred} {t : Ty} {p q : Pointer} {v : Value} :
    comparison m pred (.ptr t) (.ptr p) (.ptr q) = .ok (some v) ↔
      ∃ r, m.ptrHolds? pred p q = some r ∧ v = .ofBool r := by
  have hcompare : comparison m pred (.ptr t) (.ptr p) (.ptr q) =
      if pred.isSigned then Exec.typeMismatch "signed comparison of pointers"
      else .ok ((m.ptrHolds? pred p q).map .ofBool) := rfl
  rw [hcompare]
  split
  · next hsigned =>
    -- no order of signed numbers is ever decided
    simp only [Exec.typeMismatch_ne_ok, false_iff, not_exists, not_and]
    intro r hr
    cases pred <;> simp [Pred.isSigned, ptrHolds?] at hsigned hr
  · rw [Except.ok.injEq, Option.map_eq_some_iff]
    exact exists_congr fun r => and_congr_right fun _ => eq_comm

/-- Comparisons that are decided without a question agree with the addresses of the pointers. Equality is
decided whenever the pointers into blocks are to bytes of live blocks. -/
theorem decided_comparisons_agree {m : Memory} {p q : Pointer} (hinvariant : m.checkInvariants = .ok ())
    (hvalid : m.config.validate = .ok ())
    (hdead : ∀ id b, m.get? id = some b → b.isAlive = false → b.base + b.size ≤ m.config.memsz)
    (hp : m.pointerWf p = true) (hq : m.pointerWf q = true) :
    ∃ a c, m.address p = .ok a ∧ m.address q = .ok c ∧
      (∀ r, m.ptrEq? p q = some r → (r = true ↔ a = c)) ∧
      (¬m.ReachesEnd p q → ∀ r, m.ptrLe? p q = some r → (r = true ↔ a ≤ c)) ∧
      (¬m.ReachesEnd p q → ∀ pred t v, comparison m pred (.ptr t) (.ptr p) (.ptr q) = .ok (some v) →
        v = .ofBool (pred.holds maxIntBits a c)) ∧
      ((∀ id offset, p = .logical id offset ∨ q = .logical id offset →
        m.liveInBounds id offset = true) → m.ptrEq? p q = some (a == c)) := by
  have h : m.Confined := ⟨⟨checkInvariants_eq_ok_iff.1 hinvariant, hvalid⟩, hdead⟩
  obtain ⟨a, ha⟩ := exists_address hp
  obtain ⟨c, hc⟩ := exists_address hq
  refine ⟨a, c, ha, hc, fun r => h.ptrEq?_iff hp hq ha hc, fun hend r => h.ptrLe?_iff hp hq hend ha hc,
    ?_, ?_⟩
  · intro hend pred t v hv
    obtain ⟨r, hr, rfl⟩ := comparison_ptr_eq_ok_some_iff.1 hv
    rw [h.ptrHolds?_eq hp hq hend ha hc hr]
  · intro hbytes
    obtain ⟨r, hr⟩ := Option.isSome_iff_exists.1 (isSome_ptrEq? hbytes)
    rw [hr, Option.some.injEq, Bool.eq_iff_iff, beq_iff_eq]
    exact h.ptrEq?_iff hp hq ha hc hr

/-- A pointer to the block that lies where an older one was equals the pointer cast from the address of the
older one, as their addresses do. -/
theorem reuse_comparisons_agree :
    (reuseState 5).memory.checkInvariants = .ok () ∧
      (reuseState 5).memory.ptrEq? (.logical 1 0) (.ofAddress 8 (some 0)) = some true ∧
      (reuseState 5).memory.ptrLe? (.logical 1 0) (.ofAddress 8 (some 0)) = some true ∧
      ∃ a c, (reuseState 5).memory.address (.logical 1 0) = .ok a ∧
        (reuseState 5).memory.address (.ofAddress 8 (some 0)) = .ok c ∧ a = c ∧ a ≤ c := by
  have hinvariant : (reuseState 5).memory.checkInvariants = .ok () := by decide +kernel
  have hvalid : (reuseState 5).memory.config.validate = .ok () := by decide +kernel
  have hinitial : Config.initial reuseProgram 0 [] cellConfig = .ok reuseStart := rfl
  have hrun : (nstep reuseProgram Oracle.firstFit 5 reuseStart ()).1.outcome =
      .running (reuseState 5) := by
    decide +kernel
  have heq : (reuseState 5).memory.ptrEq? (.logical 1 0) (.ofAddress 8 (some 0)) = some true := by
    decide +kernel
  have hle : (reuseState 5).memory.ptrLe? (.logical 1 0) (.ofAddress 8 (some 0)) = some true := by
    decide +kernel
  have hend : ¬(reuseState 5).memory.ReachesEnd (.logical 1 0) (.ofAddress 8 (some 0)) := by
    rintro ⟨id, b, o₁, o₂, -, hq, -⟩
    exact Pointer.noConfusion hq
  obtain ⟨a, c, ha, hc, hequal, horder, -⟩ := decided_comparisons_agree
    (p := .logical 1 0) (q := .ofAddress 8 (some 0)) hinvariant hvalid
    (confined_of_nstep hinitial hrun).dead (by decide +kernel) (by decide +kernel)
  exact ⟨hinvariant, heq, hle, a, c, ha, hc, (hequal true heq).1 rfl, (horder hend true hle).1 rfl⟩

/-- Behind the end of the address space a larger offset has a smaller address. -/
example : (reuseState 1).memory.ptrLe? (.logical 0 0) (.logical 0 56) = some true ∧
    (reuseState 1).memory.address (.logical 0 0) = .ok 8 ∧
    (reuseState 1).memory.address (.logical 0 56) = .ok 0 := by
  decide +kernel

/-! ## Answers in the course of a run -/

/-- The later answer is the earlier one or none, and it is none if the earlier one was. -/
def Fades (earlier later : Option Bool) : Prop :=
  (later = earlier ∨ later = none) ∧ (earlier = none → later = none)

theorem fades_of_forall {earlier later : Option Bool} (h : ∀ r, later = some r → earlier = some r) :
    Fades earlier later := by
  cases later with
  | none => exact ⟨.inr rfl, fun _ => rfl⟩
  | some r =>
    rw [h r rfl]
    exact ⟨.inl rfl, fun hnone => hnone⟩

theorem Fades.eq_of_kept {earlier later : Option Bool} (h : Fades earlier later)
    (hkept : ∀ r, earlier = some r → later = some r) : later = earlier := by
  cases hr : earlier with
  | none => exact h.2 hr
  | some r => exact hkept r hr

namespace Memory.Persists

variable {m m' : Memory} {x y : Pointer}

theorem fades_ptrEq? (h : m.Persists m') (hx : m.pointerWf x = true) (hy : m.pointerWf y = true) :
    Fades (m.ptrEq? x y) (m'.ptrEq? x y) :=
  fades_of_forall fun _ => ptrEq?_mono h.config_eq.symm (fun _ => h.keepsLive_of_block? hx)
    fun _ => h.keepsLive_of_block? hy

theorem fades_ptrLe? (h : m.Persists m') (hx : m.pointerWf x = true) (hy : m.pointerWf y = true) :
    Fades (m.ptrLe? x y) (m'.ptrLe? x y) :=
  fades_of_forall fun _ => ptrLe?_mono h.config_eq.symm (fun _ => h.keepsLive_of_block? hx)
    fun _ => h.keepsLive_of_block? hy

/-- A block that is alive later has kept its place. -/
theorem keepsLive_of_isAlive {id : BlockId} (h : m.Persists m')
    (hlive : ∃ b, m'.get? id = some b ∧ b.isAlive = true) : m.KeepsLive m' id := by
  intro b hb _
  obtain ⟨b', hb', hbb'⟩ := h.block id b hb
  obtain ⟨c, hc, hcl⟩ := hlive
  obtain rfl := Option.some.inj (hb'.symm.trans hc)
  exact ⟨b', hb', hcl, hbb'.base_eq, hbb'.size_eq⟩

end Memory.Persists

namespace Config

/-- From one state of a run to a later one the answers to whether two pointers are equal and which is lower
fade only, and they stay while the blocks of the pointers live. -/
theorem fades_of_nstep {σ : Type} {p : Program} {o : Oracle σ} {c₀ c d : Config} {s : σ} {n k : Nat}
    {x y : Pointer} (hcheck : c₀.check p = .ok ()) (hc : (nstep p o n c₀ s).1.outcome = .running c)
    (hd : (nstep p o (n + k) c₀ s).1.outcome = .running d) (hx : c.memory.pointerWf x = true)
    (hy : c.memory.pointerWf y = true) :
    Fades (c.memory.ptrEq? x y) (d.memory.ptrEq? x y) ∧
      Fades (c.memory.ptrLe? x y) (d.memory.ptrLe? x y) ∧
      ((∀ id, x.block? = some id ∨ y.block? = some id →
          ∃ b, d.memory.get? id = some b ∧ b.isAlive = true) →
        d.memory.ptrEq? x y = c.memory.ptrEq? x y ∧ d.memory.ptrLe? x y = c.memory.ptrLe? x y) := by
  have hcwf := (wf_and_persists_of_nstep (check_eq_ok_iff.1 hcheck).memory hc).1
  rw [outcome_nstep_add hc] at hd
  have hpersists := (wf_and_persists_of_nstep hcwf hd).2
  have heq := hpersists.fades_ptrEq? hx hy
  have hle := hpersists.fades_ptrLe? hx hy
  refine ⟨heq, hle, fun hlive => ?_⟩
  have hxkept : ∀ id, x.block? = some id → c.memory.KeepsLive d.memory id :=
    fun id hid => hpersists.keepsLive_of_isAlive (hlive id (.inl hid))
  have hykept : ∀ id, y.block? = some id → c.memory.KeepsLive d.memory id :=
    fun id hid => hpersists.keepsLive_of_isAlive (hlive id (.inr hid))
  exact ⟨heq.eq_of_kept fun _ => ptrEq?_mono hpersists.config_eq hxkept hykept,
    hle.eq_of_kept fun _ => ptrLe?_mono hpersists.config_eq hxkept hykept⟩

end Config

/-- Before the block is released it is told that the pointer cast from its address is equal to it, after that
nothing is told. -/
theorem reuse_fades :
    (reuseState 3).memory.ptrEq? (.logical 0 0) (.ofAddress 8 (some 0)) = some true ∧
      (reuseState 4).memory.ptrEq? (.logical 0 0) (.ofAddress 8 (some 0)) = none ∧
      Fades ((reuseState 3).memory.ptrEq? (.logical 0 0) (.ofAddress 8 (some 0)))
        ((reuseState 4).memory.ptrEq? (.logical 0 0) (.ofAddress 8 (some 0))) ∧
      Fades ((reuseState 3).memory.ptrLe? (.logical 0 0) (.ofAddress 8 (some 0)))
        ((reuseState 4).memory.ptrLe? (.logical 0 0) (.ofAddress 8 (some 0))) := by
  have hcheck : reuseStart.check reuseProgram = .ok () := by decide +kernel
  have h3 : (nstep reuseProgram Oracle.firstFit 3 reuseStart ()).1.outcome =
      .running (reuseState 3) := by
    decide +kernel
  have h4 : (nstep reuseProgram Oracle.firstFit (3 + 1) reuseStart ()).1.outcome =
      .running (reuseState 4) := by
    decide +kernel
  obtain ⟨heq, hle, -⟩ := Config.fades_of_nstep (x := .logical 0 0) (y := .ofAddress 8 (some 0)) hcheck h3 h4
    (by decide +kernel) (by decide +kernel)
  exact ⟨by decide +kernel, by decide +kernel, heq, hle⟩

end PointerSemantics
