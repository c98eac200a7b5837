import PointerSemantics.Proofs.Action
import PointerSemantics.Proofs.Memory.Commute
import PointerSemantics.Proofs.Memory.Proposals

/-!
# What actions see of each other

An action that only looks at memory may be done before or after an action that changes it. Where the
kinds commute, what it sees after the change is among what it may see before, or it may go wrong before
(`Action.value_ahead`); and what it sees before is among what it may see after, or it may go wrong after
(`Action.value_behind`).
-/

namespace PointerSemantics

theorem Category.isAllocation_cases (k : Category) (h : k.isAllocation = true) :
    k = .malloc ∨ k = .alloca := by
  cases k <;> simp [isAllocation] at h ⊢

/-! ## Changes -/

/-- What actions of a kind may do to memory. -/
inductive Memory.Change (m : Memory) : Category → Memory → Prop
  | none {k} : Change m k m
  | write {id offset bytes m'} (hw : m.write id offset bytes = .ok m') : Change m .store m'
  | free {id m'} (hf : m.free id = .ok m') : Change m .free m'
  | allocate {k req id m'} (hk : k.isAllocation = true) (ha : m.allocate req = .ok (id, m')) :
    Change m k m'

namespace Memory

variable {m m' : Memory} {k : Category}

theorem Change.persists (h : m.Change k m') (hm : m.Wf) : m.Persists m' := by
  cases h with
  | none => exact .refl m
  | write hw => exact persists_write hw
  | free hf => exact persists_free hf
  | allocate _ ha => exact hm.persists_allocate ha

theorem Change.usable (h : m.Change k m') (hm : m.Usable) : m'.Usable := by
  refine ⟨?_, (h.persists hm.wf).config_eq ▸ hm.valid⟩
  cases h with
  | none => exact hm.wf
  | write hw => exact hm.wf.write hw
  | free hf => exact hm.wf.free hf
  | allocate _ ha => exact hm.wf.allocate ha

/-- A change that commutes with casts leaves the live blocks where they are. -/
theorem Change.pointerOfInt (h : m.Change k m') (hm : m.Usable)
    (hk : k.commutes .intToPtr = true ∨ Category.commutes .intToPtr k = true) (n : Nat) :
    m'.pointerOfInt n = m.pointerOfInt n := by
  have hm' := h.usable hm
  cases h with
  | none => rfl
  | write hw => exact (liveIn_write hw).pointerOfInt (liveIn_of_write hw) hm hm' n
  | free => rcases hk with hk | hk <;> exact absurd hk Bool.false_ne_true
  | allocate halloc =>
    obtain rfl | rfl := k.isAllocation_cases halloc <;> rcases hk with hk | hk <;> exact absurd hk Bool.false_ne_true

end Memory

namespace Action

variable {m m' : Memory} {a b : Action} {x : Effect}

theorem mem_act_of_isLook (h : a.isLook = true) : .ok x ∈ (a.act m).results ↔
    ∃ v, .ok v ∈ (a.value m).results ∧ x = .binding m v := by
  rw [act_of_isLook h, Ask.mem_results_map]
  constructor
  · rintro ⟨r, hr, hx⟩
    obtain ⟨v, rfl, rfl⟩ := Exec.map_eq_ok_iff.1 hx
    exact ⟨v, hr, rfl⟩
  · rintro ⟨v, hv, rfl⟩
    exact ⟨.ok v, hv, rfl⟩

theorem error_mem_act_of_isLook (h : a.isLook = true) {e : Halt} :
    .error e ∈ (a.act m).results ↔ .error e ∈ (a.value m).results := by
  rw [act_of_isLook h, Ask.mem_results_map]
  constructor
  · rintro ⟨r, hr, hx⟩
    obtain rfl := Exec.map_eq_error_iff.1 hx
    exact hr
  · exact fun he => ⟨.error e, he, rfl⟩

/-! ### Results -/

theorem results_store (m : Memory) (ty : Ty) (v : Value) (p : Pointer) :
    ((store ty v p).act m).results = [(m.storeValue ty v p).map .change] := rfl

theorem results_free (m : Memory) (p : Pointer) :
    ((free p).act m).results = [(m.freePointer p).map .change] := rfl

theorem mem_store {ty : Ty} {v : Value} {p : Pointer} : .ok x ∈ ((store ty v p).act m).results ↔
    ∃ m', m.storeValue ty v p = .ok m' ∧ x = .change m' := by
  rw [results_store, List.mem_singleton, eq_comm, Exec.map_eq_ok_iff]
  exact exists_congr fun _ => and_congr_right fun _ => eq_comm

theorem error_mem_store {ty : Ty} {v : Value} {p : Pointer} {e : Halt} :
    .error e ∈ ((store ty v p).act m).results ↔ m.storeValue ty v p = .error e := by
  rw [results_store, List.mem_singleton, eq_comm, Exec.map_eq_error_iff]

theorem mem_free {p : Pointer} : .ok x ∈ ((free p).act m).results ↔
    ∃ m', m.freePointer p = .ok m' ∧ x = .change m' := by
  rw [results_free, List.mem_singleton, eq_comm, Exec.map_eq_ok_iff]
  exact exists_congr fun _ => and_congr_right fun _ => eq_comm

theorem error_mem_free {p : Pointer} {e : Halt} :
    .error e ∈ ((free p).act m).results ↔ m.freePointer p = .error e := by
  rw [results_free, List.mem_singleton, eq_comm, Exec.map_eq_error_iff]

/-- An allocation on the heap yields null or goes to a place, if any bytes are asked for. -/
theorem mem_malloc {size : Option Nat} {r : Exec Effect} : r ∈ ((malloc size).act m).results ↔
    r = .ok (.binding m .null) ∨ size ≠ some 0 ∧ ∃ k < max (m.candidatesFor size).length 1,
      r = (m.place .heap size (m.candidatesFor size) k).map fun y =>
        .binding y.2 (.ptr (.logical y.1 0)) := by
  show r ∈ (mallocEffect m size).results ↔ _
  unfold mallocEffect
  by_cases hzero : size = some 0
  · rw [if_pos hzero, Ask.mem_results_done]
    simp [hzero]
  · rw [if_neg hzero, Ask.mem_results_ask]
    constructor
    · rintro ⟨c, hc, rfl⟩
      cases c with
      | null => exact .inl rfl
      | compare b => simp [ChoicePoint.admits] at hc
      | place k => exact .inr ⟨hzero, k, of_decide_eq_true hc, Exec.bind_pure_eq_map _ _⟩
    · rintro (rfl | ⟨-, k, hk, rfl⟩)
      · exact ⟨.null, rfl, rfl⟩
      · exact ⟨.place k, decide_eq_true hk, Exec.bind_pure_eq_map _ _⟩

/-- An allocation on the stack goes to a place. -/
theorem mem_alloca {size : Option Nat} {r : Exec Effect} : r ∈ ((alloca size).act m).results ↔
    ∃ k < max (m.candidatesFor (size.map (max · 1))).length 1,
      r = (m.place .stack (size.map (max · 1)) (m.candidatesFor (size.map (max · 1))) k).map fun y =>
        ⟨y.2, some (.ptr (.logical y.1 0)), some y.1⟩ := by
  show r ∈ (allocaEffect m size).results ↔ _
  unfold allocaEffect
  dsimp only
  rw [Ask.mem_results_ask]
  constructor
  · rintro ⟨c, hc, rfl⟩
    cases c with
    | null => simp [ChoicePoint.admits] at hc
    | compare b => simp [ChoicePoint.admits] at hc
    | place k => exact ⟨k, of_decide_eq_true hc, Exec.bind_pure_eq_map _ _⟩
  · rintro ⟨k, hk, rfl⟩
    exact ⟨.place k, decide_eq_true hk, Exec.bind_pure_eq_map _ _⟩

/-- A success changes memory as the kind of the action says. -/
theorem change_of_mem (h : .ok x ∈ (a.act m).results) : m.Change a.category x.memory := by
  by_cases hlook : a.isLook = true
  · obtain ⟨v, -, rfl⟩ := (mem_act_of_isLook hlook).1 h
    exact .none
  cases a with
  | store ty v p =>
    obtain ⟨m', hm', rfl⟩ := mem_store.1 h
    obtain ⟨id, offset, -, hw⟩ := Memory.storeValue_eq_ok_iff.1 hm'
    exact .write hw
  | free p =>
    obtain ⟨m', hm', rfl⟩ := mem_free.1 h
    obtain ⟨id, -, -, hf⟩ := Memory.liveOnHeap_of_freePointer hm'
    exact .free hf
  | malloc size =>
    rcases mem_malloc.1 h with hnull | ⟨-, k, -, hplaced⟩
    · obtain rfl := Except.ok.inj hnull
      exact .none
    · obtain ⟨⟨id, m'⟩, hplace, rfl⟩ := Exec.map_eq_ok_iff.1 hplaced.symm
      obtain ⟨req, -, -, ha⟩ := Memory.place_eq_ok hplace
      exact .allocate rfl ha
  | alloca size =>
    obtain ⟨k, -, hplaced⟩ := mem_alloca.1 h
    obtain ⟨⟨id, m'⟩, hplace, rfl⟩ := Exec.map_eq_ok_iff.1 hplaced.symm
    obtain ⟨req, -, -, ha⟩ := Memory.place_eq_ok hplace
    exact .allocate rfl ha
  | bind | move | distance | address | cast | compare | load => exact absurd rfl hlook

/-! ### Going wrong -/

/-- The action may go wrong. -/
def MayGoWrong (m : Memory) (a : Action) : Prop := ∃ ub, .error (.goesWrong ub) ∈ (a.act m).results

/-- An action that looks at memory through well-formed pointers has a value, or it is a load that goes
wrong. -/
theorem value_cases (hm : m.Usable) (ha : ∀ p ∈ a.pointers, m.pointerWf p = true) {r : Exec Value}
    (hr : r ∈ (a.value m).results) :
    (∃ v, r = .ok v) ∨ a.category = .load ∧ ∃ ub, r = .error (.goesWrong ub) := by
  cases a with
  | address p width =>
    obtain ⟨addr, haddr⟩ := Memory.exists_address (ha p List.mem_cons_self)
    obtain rfl := Ask.mem_results_done.1 hr
    rw [haddr]
    exact .inl ⟨_, rfl⟩
  | compare pred p q =>
    rw [value] at hr
    split at hr
    · obtain rfl := Ask.mem_results_done.1 hr
      exact .inl ⟨_, rfl⟩
    · obtain ⟨c, hc, rfl⟩ := Ask.mem_results_ask.1 hr
      cases c with
      | compare b => exact .inl ⟨_, rfl⟩
      | null => simp [ChoicePoint.admits] at hc
      | place i => simp [ChoicePoint.admits] at hc
  | load ty p =>
    obtain rfl := Ask.mem_results_done.1 hr
    exact (hm.fetchValue_cases (ha p List.mem_cons_self) ty).imp_right fun hub => ⟨rfl, hub⟩
  | bind | move | distance | cast | store | malloc | alloca | free =>
    obtain rfl := Ask.mem_results_done.1 hr
    exact .inl ⟨_, rfl⟩

/-- Of the actions that look at memory only a load fails, and it goes wrong. -/
theorem error_of_isLook (hm : m.Usable) (ha : ∀ p ∈ a.pointers, m.pointerWf p = true)
    (h : a.isLook = true) {e : Halt} (he : .error e ∈ (a.act m).results) :
    a.category = .load ∧ ∃ ub, e = .goesWrong ub := by
  rcases value_cases hm ha ((error_mem_act_of_isLook h).1 he) with ⟨v, hv⟩ | ⟨hload, ub, hub⟩
  · simp at hv
  · exact ⟨hload, ub, Except.error.inj hub⟩

/-- Every action but an allocation on the stack may succeed or go wrong. -/
theorem exists_mem_or_mayGoWrong (hm : m.Usable) (ha : ∀ p ∈ a.pointers, m.pointerWf p = true)
    (halloca : a.category ≠ .alloca) : (∃ x, .ok x ∈ (a.act m).results) ∨ a.MayGoWrong m := by
  by_cases hlook : a.isLook = true
  · obtain ⟨r, hr⟩ := List.exists_mem_of_ne_nil _ (a.value m).results_ne_nil
    rcases value_cases hm ha hr with ⟨v, rfl⟩ | ⟨-, ub, rfl⟩
    · exact .inl ⟨_, (mem_act_of_isLook hlook).2 ⟨v, hr, rfl⟩⟩
    · exact .inr ⟨ub, (error_mem_act_of_isLook hlook).2 hr⟩
  cases a with
  | store ty v p =>
    rcases hm.storeValue_cases (ha p List.mem_cons_self) ty v with ⟨m', hm'⟩ | ⟨ub, hub⟩
    · exact .inl ⟨_, mem_store.2 ⟨m', hm', rfl⟩⟩
    · exact .inr ⟨ub, error_mem_store.2 hub⟩
  | free p =>
    rcases m.freePointer_cases p with ⟨m', hm'⟩ | ⟨ub, hub⟩
    · exact .inl ⟨_, mem_free.2 ⟨m', hm', rfl⟩⟩
    · exact .inr ⟨ub, error_mem_free.2 hub⟩
  | malloc size => exact .inl ⟨.binding m .null, mem_malloc.2 (.inl rfl)⟩
  | alloca size => exact absurd rfl halloca
  | bind | move | distance | address | cast | compare | load => exact absurd rfl hlook

/-- An action that fails goes wrong or is out of memory. -/
theorem error_cases (hm : m.Usable) (ha : ∀ p ∈ a.pointers, m.pointerWf p = true) {e : Halt}
    (he : .error e ∈ (a.act m).results) :
    (∃ ub, e = .goesWrong ub) ∨ e = .outOfMemory := by
  by_cases hlook : a.isLook = true
  · exact .inl (error_of_isLook hm ha hlook he).2
  cases a with
  | store ty v p =>
    rcases hm.storeValue_cases (ha p List.mem_cons_self) ty v with ⟨m', hm'⟩ | ⟨ub, hub⟩
    · simp [error_mem_store, hm'] at he
    · exact .inl ⟨ub, (Except.error.inj (hub.symm.trans (error_mem_store.1 he))).symm⟩
  | free p =>
    rcases m.freePointer_cases p with ⟨m', hm'⟩ | ⟨ub, hub⟩
    · simp [error_mem_free, hm'] at he
    · exact .inl ⟨ub, (Except.error.inj (hub.symm.trans (error_mem_free.1 he))).symm⟩
  | malloc size =>
    rcases mem_malloc.1 he with hnull | ⟨-, k, hk, hplaced⟩
    · simp at hnull
    · exact .inr (Memory.place_error hk (Exec.map_eq_error_iff.1 hplaced.symm)).2
  | alloca size =>
    obtain ⟨k, hk, hplaced⟩ := mem_alloca.1 he
    exact .inr (Memory.place_error hk (Exec.map_eq_error_iff.1 hplaced.symm)).2
  | bind | move | distance | address | cast | compare | load => exact absurd rfl hlook

/-! ### Looking across a change -/

/-- The value of a pure action is the same after any change. -/
theorem value_of_persists (h : m.Persists m') (ha : ∀ p ∈ a.pointers, m.pointerWf p = true)
    (hpure : a.category.isPure = true) : a.value m' = a.value m := by
  cases a with
  | bind v => rfl
  | move p delta inbounds =>
    simp only [value, h.movePointer (ha p List.mem_cons_self)]
  | distance p q size =>
    have hp := ha p List.mem_cons_self
    have hq := ha q (List.mem_cons_of_mem _ List.mem_cons_self)
    simp only [value, h.pointerDistance hp hq]
  | address p width => simp only [value, h.address (ha p List.mem_cons_self)]
  | cast | compare | load | store | malloc | alloca | free =>
    simp [category, Category.isPure] at hpure

/-- A comparison has fewer results the more is decided. -/
theorem mem_value_compare {pred : Pred} {p q : Pointer}
    (h : ∀ s, m.ptrHolds? pred p q = some s → m'.ptrHolds? pred p q = some s) {r : Exec Value}
    (hr : r ∈ ((compare pred p q).value m').results) : r ∈ ((compare pred p q).value m).results := by
  have hbool : ∃ s, r = .ok (.ofBool s) := by
    rw [value] at hr
    split at hr
    · exact ⟨_, Ask.mem_results_done.1 hr⟩
    · obtain ⟨c, hc, rfl⟩ := Ask.mem_results_ask.1 hr
      cases c with
      | compare s => exact ⟨s, rfl⟩
      | null => simp [ChoicePoint.admits] at hc
      | place i => simp [ChoicePoint.admits] at hc
  rw [value]
  cases hs : m.ptrHolds? pred p q with
  | some s => rwa [value, h s hs] at hr
  | none =>
    obtain ⟨s, rfl⟩ := hbool
    exact Ask.mem_results_ask.2 ⟨.compare s, rfl, rfl⟩

variable {k : Category} {r : Exec Value}

/-- What an action sees after a change of a kind that it may move ahead of, it may have seen before, or it
may have gone wrong. -/
theorem value_ahead (hm : m.Usable) (ha : ∀ p ∈ a.pointers, m.pointerWf p = true)
    (hlook : a.isLook = true) (hc : m.Change k m') (hcomm : a.category.commutes k = true)
    (hr : r ∈ (a.value m').results) : r ∈ (a.value m).results ∨ a.MayGoWrong m := by
  have hpersists := hc.persists hm.wf
  have hm' := hc.usable hm
  cases a with
  | bind | move | distance | address => exact .inl (value_of_persists hpersists ha rfl ▸ hr)
  | cast n =>
    rw [value, hc.pointerOfInt hm (.inr hcomm)] at hr
    exact .inl hr
  | compare pred p q =>
    refine .inl ?_
    have hlive : m.LiveIn m' := by
      cases hc with
      | none => exact Memory.liveIn_refl m
      | write hw => exact Memory.liveIn_write hw
      | free => exact absurd hcomm Bool.false_ne_true
      | allocate _ halloc => exact hm.wf.liveIn_allocate halloc
    exact mem_value_compare (fun _ => Memory.ptrHolds?_mono hlive.config_eq
      (fun id _ => hlive.block id) fun id _ => hlive.block id) hr
  | load ty p =>
    cases hc with
    | none => exact .inl hr
    | write => exact absurd hcomm Bool.false_ne_true
    | free => exact absurd hcomm Bool.false_ne_true
    | allocate _ halloc =>
      obtain rfl := Ask.mem_results_done.1 hr
      -- a value there is the value that was there; the access may only have been out of place before
      rcases hm.fetchValue_cases (ha p List.mem_cons_self) ty with ⟨v, hv⟩ | ⟨ub, hub⟩
      · refine .inl (Ask.mem_results_done.2 ?_)
        rw [hv]
        exact (hm.wf.liveIn_allocate halloc).fetchValue hm hm'
          (fun _ _ _ _ => hm.wf.read_allocate halloc) hv
      · exact .inr ⟨ub, (error_mem_act_of_isLook rfl).2 (Ask.mem_results_done.2 hub.symm)⟩
  | store | malloc | alloca | free => simp [isLook] at hlook

/-- What an action sees before a change of a kind that may move behind it, it may see after, or it may go
wrong then. -/
theorem value_behind (hm : m.Usable) (ha : ∀ p ∈ a.pointers, m.pointerWf p = true)
    (hlook : a.isLook = true) (hc : m.Change k m') (hcomm : k.commutes a.category = true)
    (hr : r ∈ (a.value m).results) : r ∈ (a.value m').results ∨ a.MayGoWrong m' := by
  have hpersists := hc.persists hm.wf
  have hm' := hc.usable hm
  cases a with
  | bind | move | distance | address => exact .inl (value_of_persists hpersists ha rfl ▸ hr)
  | cast n =>
    rw [value, hc.pointerOfInt hm (.inl hcomm)]
    exact .inl hr
  | compare pred p q =>
    -- a block that is alive then was alive before, so no more is decided than before
    have hkeeps : ∀ p' ∈ (compare pred p q).pointers, ∀ id, p'.block? = some id → m'.KeepsLive m id :=
      fun p' hp' _ => hpersists.keepsLive_of_block? (ha p' hp')
    refine .inl (mem_value_compare (fun _ => Memory.ptrHolds?_mono hpersists.config_eq.symm ?_ ?_) hr)
    · exact hkeeps p List.mem_cons_self
    · exact hkeeps q (List.mem_cons_of_mem _ List.mem_cons_self)
  | load ty p =>
    cases hc with
    | none => exact .inl hr
    | write => exact absurd hcomm Bool.false_ne_true
    | free hf =>
      obtain rfl := Ask.mem_results_done.1 hr
      rcases hm'.fetchValue_cases (hpersists.pointerWf (ha p List.mem_cons_self)) ty with
        ⟨v, hv⟩ | ⟨ub, hub⟩
      · refine .inl (Ask.mem_results_done.2 ?_)
        rw [hv]
        exact (Memory.liveIn_of_free hf).fetchValue hm' hm (fun _ _ _ _ => Memory.read_of_free hf) hv
      · exact .inr ⟨ub, (error_mem_act_of_isLook rfl).2 (Ask.mem_results_done.2 hub.symm)⟩
    | allocate hk => obtain rfl | rfl := k.isAllocation_cases hk <;> exact absurd hcomm Bool.false_ne_true
  | store | malloc | alloca | free => simp [isLook] at hlook

end Action

end PointerSemantics
