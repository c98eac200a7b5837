import PointerSemantics.Proofs.Swap.Actions

/-!
# Two actions in either order

`Ordered F G m` are the results of doing `F` and then `G`. Where the kinds of two actions commute, doing
the second one ahead leads to nothing new (`Action.overtakes`): each result is one of the order as it is,
up to the times in memory, or the order as it is may go wrong.
-/

namespace PointerSemantics

/-- What the first computation on memory followed by the second leads to. -/
inductive Ordered (F G : Memory → Ask (Exec Effect)) (m : Memory) : Exec (Effect × Effect) → Prop
  | first {e} (hF : .error e ∈ (F m).results) : Ordered F G m (.error e)
  | second {x e} (hF : .ok x ∈ (F m).results) (hG : .error e ∈ (G x.memory).results) :
    Ordered F G m (.error e)
  | both {x y} (hF : .ok x ∈ (F m).results) (hG : .ok y ∈ (G x.memory).results) :
    Ordered F G m (.ok (x, y))

/-- The effects bind the same value and hand over the same block. -/
structure Effect.Agrees (x y : Effect) : Prop where
  value : x.value = y.value
  stackBlock : x.stackBlock = y.stackBlock

theorem Effect.Agrees.refl (x : Effect) : x.Agrees x := ⟨rfl, rfl⟩

/-- The order `F`, `G` has a result of the order `G`, `F`, up to times. -/
inductive Matches (F G : Memory → Ask (Exec Effect)) (m : Memory) : Exec (Effect × Effect) → Prop
  | error {e} (h : Ordered F G m (.error e)) : Matches F G m (.error e)
  | ok {x y x' y'} (h : Ordered F G m (.ok (x', y'))) (hx : x'.Agrees x) (hy : y'.Agrees y)
      (hmemory : y'.memory.erase .times = x.memory.erase .times) : Matches F G m (.ok (y, x))

/-- The second computation may be done ahead of the first: it leads to nothing new unless the first one
first may go wrong. -/
def Overtakes (F G : Memory → Ask (Exec Effect)) (m : Memory) : Prop :=
  ∀ r, Ordered G F m r → (∃ ub, Ordered F G m (.error (.goesWrong ub))) ∨ Matches F G m r

namespace Action

variable {m n : Memory} {a b : Action}

theorem MayGoWrong.first (h : a.MayGoWrong m) : ∃ ub, Ordered a.act b.act m (.error (.goesWrong ub)) := by
  obtain ⟨ub, hub⟩ := h
  exact ⟨ub, .first hub⟩

theorem MayGoWrong.second {x : Effect} (hx : .ok x ∈ (a.act m).results) (h : b.MayGoWrong x.memory) :
    ∃ ub, Ordered a.act b.act m (.error (.goesWrong ub)) := by
  obtain ⟨ub, hub⟩ := h
  exact ⟨ub, .second hx hub⟩

/-! ## Actions that look -/

/-- Anything that commutes may be done ahead of an action that looks. -/
theorem overtakes_look (hm : m.Usable) (ha : ∀ p ∈ a.pointers, m.pointerWf p = true)
    (hlook : a.isLook = true) (hcomm : a.category.commutes b.category = true) :
    Overtakes a.act b.act m := by
  intro r hr
  cases hr with
  | @first e hb =>
    -- the other order comes to `b` as well, since looking does not change memory
    have halloca : a.category ≠ .alloca := by
      cases a <;> simp [category, isLook] at hlook ⊢
    rcases exists_mem_or_mayGoWrong hm ha halloca with ⟨x, hx⟩ | hwrong
    · obtain ⟨v, -, rfl⟩ := (mem_act_of_isLook hlook).1 hx
      exact .inr (.error (.second hx hb))
    · exact .inl hwrong.first
  | @second y e hb hae =>
    rcases value_ahead hm ha hlook (change_of_mem hb) hcomm ((error_mem_act_of_isLook hlook).1 hae) with
      hv | hwrong
    · exact .inr (.error (.first ((error_mem_act_of_isLook hlook).2 hv)))
    · exact .inl hwrong.first
  | @both y x hb hax =>
    obtain ⟨v, hv, rfl⟩ := (mem_act_of_isLook hlook).1 hax
    rcases value_ahead hm ha hlook (change_of_mem hb) hcomm hv with hv | hwrong
    · have hx := (mem_act_of_isLook hlook).2 ⟨v, hv, rfl⟩
      exact .inr (.ok (.both hx hb) ⟨rfl, rfl⟩ (.refl y) rfl)
    · exact .inl hwrong.first

/-- An action that looks may be done ahead of anything it commutes with. -/
theorem look_overtakes (hm : m.Usable) (ha : ∀ p ∈ a.pointers, m.pointerWf p = true)
    (hb : ∀ p ∈ b.pointers, m.pointerWf p = true) (hlook : b.isLook = true)
    (hcomm : a.category.commutes b.category = true) : Overtakes a.act b.act m := by
  intro r hr
  cases hr with
  | @first e hbe =>
    -- only a load goes wrong, and no load overtakes an allocation on the stack
    have halloca : a.category ≠ .alloca := by
      intro halloca
      rw [halloca, (error_of_isLook hm hb hlook hbe).1] at hcomm
      simp [Category.commutes, Category.isPure] at hcomm
    rcases exists_mem_or_mayGoWrong hm ha halloca with ⟨x, hx⟩ | hwrong
    · rcases value_behind hm hb hlook (change_of_mem hx) hcomm
        ((error_mem_act_of_isLook hlook).1 hbe) with hv | hwrong
      · exact .inr (.error (.second hx ((error_mem_act_of_isLook hlook).2 hv)))
      · exact .inl (hwrong.second hx)
    · exact .inl hwrong.first
  | @second y e hby hae =>
    obtain ⟨v, -, rfl⟩ := (mem_act_of_isLook hlook).1 hby
    exact .inr (.error (.first hae))
  | @both y x hby hax =>
    obtain ⟨v, hv, rfl⟩ := (mem_act_of_isLook hlook).1 hby
    rcases value_behind hm hb hlook (change_of_mem hax) hcomm hv with hv | hwrong
    · have hy := (mem_act_of_isLook hlook).2 ⟨v, hv, rfl⟩
      exact .inr (.ok (.both hax hy) (.refl x) ⟨rfl, rfl⟩ rfl)
    · exact .inl (hwrong.second hax)

/-! ## Two changes -/

/-- If the other order leads to one pair of effects only, that pair is all there is to match. -/
theorem overtakes_of_results {F G : Memory → Ask (Exec Effect)} {x y x' y' : Effect}
    (hx : .ok x ∈ (F m).results) (hy : .ok y ∈ (G x.memory).results)
    (hG : (G m).results = [.ok y']) (hF : (F y'.memory).results = [.ok x']) (hxx' : x.Agrees x')
    (hyy' : y.Agrees y') (hmemory : y.memory.erase .times = x'.memory.erase .times) :
    Overtakes F G m := by
  intro r hr
  cases hr with
  | first he => simp [hG] at he
  | second h he =>
    rw [hG, List.mem_singleton] at h
    obtain rfl := Except.ok.inj h
    simp [hF] at he
  | both h h' =>
    rw [hG, List.mem_singleton] at h
    obtain rfl := Except.ok.inj h
    rw [hF, List.mem_singleton] at h'
    obtain rfl := Except.ok.inj h'
    exact .inr (.ok (.both hx hy) hxx' hyy' hmemory)

/-- A store may be done ahead of a release. -/
theorem store_overtakes_free (hm : m.Usable) {p q : Pointer} {ty : Ty} {v : Value}
    (hq : m.pointerWf q = true) : Overtakes (free p).act (store ty v q).act m := by
  rcases m.freePointer_cases p with ⟨n₁, hfree⟩ | ⟨ub, hub⟩
  · have hx : .ok (.change n₁) ∈ ((free p).act m).results := mem_free.2 ⟨n₁, hfree, rfl⟩
    have hchange := change_of_mem hx
    have hq' := (hchange.persists hm.wf).pointerWf hq
    rcases (hchange.usable hm).storeValue_cases hq' ty v with ⟨n₂, hstore⟩ | ⟨ub, hub⟩
    · obtain ⟨m₁, hm₁, hn₂⟩ := hm.storeValue_before_free hfree hstore
      have hG : ((store ty v q).act m).results = [.ok (.change m₁)] := by
        rw [results_store, hm₁]
        rfl
      have hF : ((free p).act m₁).results = [.ok (.change n₂)] := by
        rw [results_free, hn₂]
        rfl
      exact overtakes_of_results hx (mem_store.2 ⟨n₂, hstore, rfl⟩) hG hF ⟨rfl, rfl⟩ ⟨rfl, rfl⟩ rfl
    · exact fun r _ => .inl (MayGoWrong.second hx ⟨ub, error_mem_store.2 hub⟩)
  · exact fun r _ => .inl (MayGoWrong.first ⟨ub, error_mem_free.2 hub⟩)

/-- Of two releases either may be the first. -/
theorem free_overtakes_free (p q : Pointer) : Overtakes (free p).act (free q).act m := by
  rcases m.freePointer_cases p with ⟨n₁, hfree⟩ | ⟨ub, hub⟩
  · have hx : .ok (.change n₁) ∈ ((free p).act m).results := mem_free.2 ⟨n₁, hfree, rfl⟩
    rcases n₁.freePointer_cases q with ⟨n₂, hfree'⟩ | ⟨ub, hub⟩
    · obtain ⟨m₁, m₂, hm₁, hm₂, htimes⟩ := Memory.freePointer_before_free hfree hfree'
      have hG : ((free q).act m).results = [.ok (.change m₁)] := by
        rw [results_free, hm₁]
        rfl
      have hF : ((free p).act m₁).results = [.ok (.change m₂)] := by
        rw [results_free, hm₂]
        rfl
      exact overtakes_of_results hx (mem_free.2 ⟨n₂, hfree', rfl⟩) hG hF ⟨rfl, rfl⟩ ⟨rfl, rfl⟩ htimes
    · exact fun r _ => .inl (MayGoWrong.second hx ⟨ub, error_mem_free.2 hub⟩)
  · exact fun r _ => .inl (MayGoWrong.first ⟨ub, error_mem_free.2 hub⟩)

/-- An allocation after a store is the allocation without it, with the same store after it. -/
theorem allocation_after_store (hm : m.Usable) (hb : b.category.isAllocation = true) {p : Pointer}
    {ty : Ty} {v : Value} (hs : m.storeValue ty v p = .ok n) {r : Exec Effect}
    (hr : r ∈ (b.act m).results) : (∃ e, r = .error e ∧ .error e ∈ (b.act n).results) ∨
      ∃ y y', r = .ok y ∧ .ok y' ∈ (b.act n).results ∧ y'.Agrees y ∧
        y.memory.storeValue ty v p = .ok y'.memory := by
  obtain ⟨id, offset, -, hw⟩ := Memory.storeValue_eq_ok_iff.1 hs
  have hcandidates : ∀ size, n.candidatesFor size = m.candidatesFor size := fun size =>
    Memory.candidatesFor_congr (Memory.persists_write hw).config_eq (Memory.reservedRanges_write hw) size
  cases b with
  | malloc size =>
    rcases mem_malloc.1 hr with rfl | ⟨hsize, k, hk, rfl⟩
    · -- null leaves memory to the store
      exact .inr ⟨_, _, rfl, mem_malloc.2 (.inl rfl), ⟨rfl, rfl⟩, hs⟩
    · have hmem : ∀ x, n.place .heap size (m.candidatesFor size) k = x →
          (x.map fun y => .binding y.2 (.ptr (.logical y.1 0))) ∈ ((malloc size).act n).results := by
        rintro x rfl
        refine mem_malloc.2 (.inr ⟨hsize, k, ?_⟩)
        rw [hcandidates]
        exact ⟨hk, rfl⟩
      rcases hm.place_storeValue hs .heap size (m.candidatesFor size) k with
        ⟨e, he, he'⟩ | ⟨i, m₁, n₂, hm₁, hn₂, hstore⟩
      · rw [he]
        exact .inl ⟨e, rfl, hmem _ he'⟩
      · rw [hm₁]
        exact .inr ⟨_, _, rfl, hmem _ hn₂, ⟨rfl, rfl⟩, hstore⟩
  | alloca size =>
    obtain ⟨k, hk, rfl⟩ := mem_alloca.1 hr
    have hmem : ∀ x, n.place .stack (size.map (max · 1)) (m.candidatesFor (size.map (max · 1))) k = x →
        (x.map fun y => ⟨y.2, some (.ptr (.logical y.1 0)), some y.1⟩) ∈
          ((alloca size).act n).results := by
      rintro x rfl
      refine mem_alloca.2 ⟨k, ?_⟩
      rw [hcandidates]
      exact ⟨hk, rfl⟩
    rcases hm.place_storeValue hs .stack (size.map (max · 1)) (m.candidatesFor (size.map (max · 1))) k
      with ⟨e, he, he'⟩ | ⟨i, m₁, n₂, hm₁, hn₂, hstore⟩
    · rw [he]
      exact .inl ⟨e, rfl, hmem _ he'⟩
    · rw [hm₁]
      exact .inr ⟨_, _, rfl, hmem _ hn₂, ⟨rfl, rfl⟩, hstore⟩
  | bind | move | distance | address | cast | compare | load | store | free =>
    simp [category, Category.isAllocation] at hb

/-- An allocation may be done ahead of a store. -/
theorem allocation_overtakes_store (hm : m.Usable) (hb : b.category.isAllocation = true) {p : Pointer}
    (hp : m.pointerWf p = true) (ty : Ty) (v : Value) : Overtakes (store ty v p).act b.act m := by
  intro r hr
  rcases hm.storeValue_cases hp ty v with ⟨n, hn⟩ | ⟨ub, hub⟩
  · have hx : .ok (.change n) ∈ ((store ty v p).act m).results := mem_store.2 ⟨n, hn, rfl⟩
    cases hr with
    | @first e he =>
      rcases allocation_after_store hm hb hn he with ⟨e', he', hmem⟩ | ⟨y, y', hy, -⟩
      · obtain rfl := Except.error.inj he'
        exact .inr (.error (.second hx hmem))
      · simp at hy
    | @second y e hy he =>
      rcases allocation_after_store hm hb hn hy with ⟨e', he', -⟩ | ⟨z, y', hz, -, -, hstore⟩
      · simp at he'
      · obtain rfl := Except.ok.inj hz
        simp [error_mem_store, hstore] at he
    | @both y x hy hx' =>
      rcases allocation_after_store hm hb hn hy with ⟨e', he', -⟩ | ⟨z, y', hz, hmem, hagrees, hstore⟩
      · simp at he'
      · obtain rfl := Except.ok.inj hz
        obtain ⟨m', hm', rfl⟩ := mem_store.1 hx'
        obtain rfl := Except.ok.inj (hstore.symm.trans hm')
        exact .inr (.ok (.both hx hmem) ⟨rfl, rfl⟩ hagrees rfl)
  · exact .inl (MayGoWrong.first ⟨ub, error_mem_store.2 hub⟩)

/-! ## All pairs -/

/-- Where the kinds of two actions commute, the second may be done ahead of the first. -/
theorem overtakes (hm : m.Usable) (ha : ∀ p ∈ a.pointers, m.pointerWf p = true)
    (hb : ∀ p ∈ b.pointers, m.pointerWf p = true)
    (hcomm : a.category.commutes b.category = true) : Overtakes a.act b.act m := by
  by_cases hal : a.isLook = true
  · exact overtakes_look hm ha hal hcomm
  by_cases hbl : b.isLook = true
  · exact look_overtakes hm ha hb hbl hcomm
  cases a with
  | store ty v p =>
    have hp := ha p List.mem_cons_self
    cases b with
    | malloc size => exact allocation_overtakes_store hm rfl hp ty v
    | alloca size => exact allocation_overtakes_store hm rfl hp ty v
    | store | free => exact nomatch hcomm
    | bind | move | distance | address | cast | compare | load => exact absurd rfl hbl
  | free p =>
    cases b with
    | store ty v q => exact store_overtakes_free hm (hb q List.mem_cons_self)
    | free q => exact free_overtakes_free p q
    | malloc | alloca => exact nomatch hcomm
    | bind | move | distance | address | cast | compare | load => exact absurd rfl hbl
  | malloc | alloca =>
    cases b with
    | store | free | malloc | alloca => exact nomatch hcomm
    | bind | move | distance | address | cast | compare | load => exact absurd rfl hbl
  | bind | move | distance | address | cast | compare | load => exact absurd rfl hal

end Action

end PointerSemantics
