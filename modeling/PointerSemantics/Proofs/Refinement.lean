import Mathlib.Data.Setoid.Basic
import Mathlib.Logic.Relation
import PointerSemantics.Proofs.Clock
import PointerSemantics.Proofs.Search

/-!
# Refinement composes

The comparison of traces looks at a part of them only (`Trace.view`): at nothing where they go wrong, and
else at the events and the outcome, where a state shows neither its places nor its times nor the numbers its
blocks stand under. Two traces are equivalent exactly if they show the same (`Trace.equivalent_iff`), so
equivalence is an equivalence relation.

A trace that goes wrong absorbs what begins with its events, and traces that go wrong are equivalent whatever
their events are. So refinement does not compose over all traces: in the middle a trace that goes wrong may
have fewer events than the source. The traces of an exploration have no events, and below them refinement
composes along every chain (`equivalence_and_refines_of_chain`).
-/

namespace PointerSemantics

/-! ## What comparisons look at -/

theorem length_eq_and_all_zip_iff {α β : Type} {f : α → β} {r : α → α → Bool}
    (h : ∀ a b, r a b = true ↔ f a = f b) (as bs : List α) :
    as.length = bs.length ∧ (as.zip bs).all (fun x => r x.1 x.2) = true ↔ as.map f = bs.map f := by
  constructor
  · rintro ⟨hlength, hall⟩
    exact map_eq_of_all_zip hlength hall fun a _ b _ => (h a b).1
  · intro hmap
    have hlength := congrArg List.length hmap
    rw [List.length_map, List.length_map] at hlength
    exact ⟨hlength, all_zip_of_map_eq (fun a b => (h a b).2) hmap⟩

theorem Block.eqModuloClock_iff (a b : Block) :
    a.eqModuloClock b = true ↔ a.erase .times = b.erase .times :=
  ⟨erase_of_eqModuloClock, eqModuloClock_of_erase⟩

namespace Memory

/-- Of a memory, all but the clock, the times in blocks and the numbers they stand under. -/
structure View where
  config : MemConfig
  freshId : BlockId
  blocks : List Block

def view (m : Memory) : View := ⟨m.config, m.freshId, m.blocks.values.map (Block.erase .times)⟩

theorem eqModuloClock_iff {m n : Memory} : m.eqModuloClock n = true ↔ m.view = n.view := by
  have hblocks := length_eq_and_all_zip_iff Block.eqModuloClock_iff m.blocks.values n.blocks.values
  have hsize : ∀ m : Memory, m.blocks.values.length = m.blocks.size := fun m => List.length_map _
  rw [hsize, hsize] at hblocks
  simp only [eqModuloClock, Bool.and_eq_true, beq_iff_eq, view, View.mk.injEq, ← hblocks, and_assoc]

end Memory

namespace Config

/-- A frame without its place. -/
def unplaced (f : Frame) : Frame := { f with pc := .entry }

theorem frameEqModuloPc_iff (f g : Frame) :
    frameEqModuloPc f g = true ↔ unplaced f = unplaced g := by
  simp only [frameEqModuloPc, Bool.and_eq_true, beq_iff_eq, unplaced, Frame.mk.injEq, true_and,
    and_assoc]

/-- Of a state, all but the places and what memory hides. -/
structure View where
  memory : Memory.View
  stack : List Frame
  callTable : Table FunctionId
  nextCallId : CallId

def view (c : Config) : View := ⟨c.memory.view, c.stack.map unplaced, c.callTable, c.nextCallId⟩

theorem eqModuloPc_iff {c d : Config} : c.eqModuloPc d = true ↔ c.view = d.view := by
  have hstack := length_eq_and_all_zip_iff frameEqModuloPc_iff c.stack d.stack
  simp only [eqModuloPc, Bool.and_eq_true, beq_iff_eq, Memory.eqModuloClock_iff, view, View.mk.injEq,
    ← hstack]
  tauto

end Config

/-- Of an end, all but the reason of undefined behaviour. -/
def Halt.view : Halt → Option Halt
  | goesWrong _ => none
  | h => some h

theorem Halt.agrees_iff {h k : Halt} : h.agrees k = true ↔ h.view = k.view := by
  cases h <;> cases k <;> simp [agrees, view]

/-- Of an outcome, all but what ends and states hide. -/
inductive Outcome.View where
  | halted (h : Option Halt)
  | timeout
  | running (c : Config.View)

def Outcome.view : Outcome → Outcome.View
  | halted h => .halted h.view
  | timeout => .timeout
  | running c => .running c.view

theorem Outcome.agrees_iff {x y : Outcome} : x.agrees y = true ↔ x.view = y.view := by
  cases x <;> cases y <;> simp [agrees, view, Halt.agrees_iff, Config.eqModuloPc_iff]

theorem Outcome.goesWrong_iff {x : Outcome} : x.goesWrong = true ↔ x.view = .halted none := by
  cases x with
  | halted h => cases h <;> simp [goesWrong, view, Halt.view]
  | timeout | running c => simp [goesWrong, view]

theorem Outcome.goesWrong_of_agrees {x y : Outcome} (h : x.agrees y = true) :
    x.goesWrong = y.goesWrong := by
  rw [Bool.eq_iff_iff, goesWrong_iff, goesWrong_iff, agrees_iff.1 h]

namespace Trace

/-- Of a trace, the events and the outcome without the number of steps; nothing if it goes wrong. -/
def view (t : Trace) : Option (List Event × Outcome.View) :=
  if t.outcome.goesWrong then none else some (t.events, t.outcome.view)

theorem goesWrong_of_equivalent {t u : Trace} (h : t.equivalent u = true) :
    t.outcome.goesWrong = u.outcome.goesWrong := by
  rw [equivalent, Bool.or_eq_true, Bool.and_eq_true, Bool.and_eq_true] at h
  obtain ⟨ht, hu⟩ | ⟨-, hagrees⟩ := h
  · rw [ht, hu]
  · exact Outcome.goesWrong_of_agrees hagrees

/-- Traces are equivalent exactly if they show the same. -/
theorem equivalent_iff {t u : Trace} : t.equivalent u = true ↔ t.view = u.view := by
  constructor
  · intro h
    have hwrong := goesWrong_of_equivalent h
    cases ht : t.outcome.goesWrong with
    | true => simp only [view, ht, ← hwrong, if_true]
    | false =>
      obtain ⟨hevents, houtcome⟩ : t.events = u.events ∧ t.outcome.view = u.outcome.view := by
        simpa [equivalent, ht, Outcome.agrees_iff] using h
      simp only [view, ← hwrong, hevents, houtcome]
  · intro h
    cases ht : t.outcome.goesWrong with
    | true =>
      cases hu : u.outcome.goesWrong with
      | true => simp [equivalent, ht, hu]
      | false => simp [view, ht, hu] at h
    | false =>
      cases hu : u.outcome.goesWrong with
      | true => simp [view, ht, hu] at h
      | false =>
        obtain ⟨hevents, houtcome⟩ : t.events = u.events ∧ t.outcome.view = u.outcome.view := by
          simpa [view, ht, hu] using h
        simp [equivalent, hevents, Outcome.agrees_iff, houtcome]

theorem equivalent_equivalence : Equivalence fun t u : Trace => t.equivalent u = true where
  refl _ := equivalent_iff.2 rfl
  symm h := equivalent_iff.2 (equivalent_iff.1 h).symm
  trans h h' := equivalent_iff.2 ((equivalent_iff.1 h).trans (equivalent_iff.1 h'))

/-! ## What a trace allows -/

/-- What one trace allows: the traces it is equivalent to and, if it goes wrong, all that begin with its
events. -/
def Allows (s t : Trace) : Prop :=
  t.equivalent s = true ∨ s.outcome.goesWrong = true ∧ s.events <+: t.events

theorem refines_iff {t : Trace} {sources : List Trace} :
    t.refines sources = true ↔ ∃ s ∈ sources, s.Allows t := by
  simp only [refines, List.any_eq_true, Bool.or_eq_true, Bool.and_eq_true, List.isPrefixOf_iff_prefix,
    Allows]

theorem Allows.goesWrong {s t : Trace} (h : s.Allows t) (ht : t.outcome.goesWrong = true) :
    s.outcome.goesWrong = true := by
  obtain hts | ⟨hs, -⟩ := h
  · rw [← goesWrong_of_equivalent hts, ht]
  · exact hs

/-- A trace that goes wrong without an event allows everything. -/
theorem allows_of_goesWrong {s : Trace} (hs : s.events = []) (hwrong : s.outcome.goesWrong = true)
    (t : Trace) : s.Allows t := by
  refine .inr ⟨hwrong, ?_⟩
  rw [hs]
  exact List.nil_prefix

/-- A trace without events allows what the traces it allows do. -/
theorem Allows.trans {s t u : Trace} (hs : s.events = []) (hst : s.Allows t) (htu : t.Allows u) :
    s.Allows u := by
  -- the middle is equivalent to the target, or goes wrong and so does the source
  obtain hut | ⟨ht, -⟩ := htu
  · obtain hts | ⟨hwrong, -⟩ := hst
    · exact .inl (equivalent_equivalence.trans hut hts)
    · exact allows_of_goesWrong hs hwrong u
  · exact allows_of_goesWrong hs (hst.goesWrong ht) u

/-! ## What a list of traces allows -/

/-- All traces of the second list refine the first. -/
def RefinedBy (S T : List Trace) : Prop := ∀ t ∈ T, t.refines S = true

variable {S T U : List Trace}

theorem RefinedBy.trans (hS : ∀ s ∈ S, s.events = []) (hST : RefinedBy S T) (hTU : RefinedBy T U) :
    RefinedBy S U := by
  intro u hu
  obtain ⟨t, ht, htu⟩ := refines_iff.1 (hTU u hu)
  obtain ⟨s, hs, hst⟩ := refines_iff.1 (hST t ht)
  exact refines_iff.2 ⟨s, hs, hst.trans (hS s hs) htu⟩

/-- Events break the chain: the first two traces go wrong, the second one earlier than the first. -/
example : ∃ s t u : Trace, t.refines [s] = true ∧ u.refines [t] = true ∧ u.refines [s] = false :=
  ⟨⟨[.silent], .halted (.goesWrong .divisionByZero), 1⟩, ⟨[], .halted (.goesWrong .divisionByZero), 1⟩,
    ⟨[], .timeout, 1⟩, by decide⟩

end Trace

/-! ## Explorations -/

/-- No step has an event, so no run has one. -/
theorem Config.Plays.events_eq_nil {p : Program} {c : Config} {n : Nat} {script : List Choice} {t : Trace}
    (h : c.Plays p n script t) : t.events = [] := by
  induction h with
  | running => rfl
  | halted hr => rfl
  | step hr ht ih => exact ih

theorem events_of_mem_nstepAll {p : Program} {c : Config} {n limit : Nat} {t : Trace}
    (h : t ∈ (nstepAll p c n limit).1) : t.events = [] := by
  rw [nstepAll_eq] at h
  obtain ⟨l, hl, rfl⟩ := List.mem_map.1 (List.mem_of_mem_take h)
  exact (Config.mem_leaves_iff.1 hl).events_eq_nil

/-- A report on an exchange, with the first traces for the order as it is and the second for the exchanged
order, finds the refinement. -/
def Exchange (S T : List Trace) : Prop :=
  ∃ (p : Program) (c : Config) (limit : Nat) (report : SwapReport),
    c.validateSwap p limit = .ok report ∧ report.refines = true ∧ report.source = S ∧ report.target = T

namespace Exchange

variable {S T : List Trace}

theorem refinedBy (h : Exchange S T) : Trace.RefinedBy S T := by
  obtain ⟨p, c, limit, report, -, hrefines, rfl, rfl⟩ := h
  exact List.all_eq_true.1 hrefines

theorem events_eq_nil (h : Exchange S T) : ∀ s ∈ S, s.events = [] := by
  obtain ⟨p, c, limit, report, hreport, -, rfl, rfl⟩ := h
  obtain ⟨p', hsource, -, -⟩ := Config.exists_of_validateSwap hreport
  rw [hsource]
  intro s hs
  exact events_of_mem_nstepAll hs

end Exchange

/-- Below traces without events a chain of exchanges is a refinement. -/
theorem refinedBy_of_exchanges {S U : List Trace} (hS : ∀ s ∈ S, s.events = [])
    (h : Relation.TransGen Exchange S U) : Trace.RefinedBy S U := by
  induction h with
  | single h => exact h.refinedBy
  | tail _ h ih => exact ih.trans hS h.refinedBy

/-- Equivalence of traces is an equivalence relation, and refinement composes. If traces refine an
exploration, then so do the traces that refine them; and after a chain of exchanges, each of which was found
to be a refinement of the traces before, all traces refine those at its beginning. -/
theorem equivalence_and_refines_of_chain :
    (Equivalence fun t u : Trace => t.equivalent u = true) ∧
      (∀ (p : Program) (c : Config) (n limit : Nat) (T U : List Trace),
        (∀ t ∈ T, t.refines (nstepAll p c n limit).1 = true) → (∀ u ∈ U, u.refines T = true) →
          ∀ u ∈ U, u.refines (nstepAll p c n limit).1 = true) ∧
      ∀ S U : List Trace, Relation.TransGen Exchange S U → ∀ u ∈ U, u.refines S = true := by
  refine ⟨Trace.equivalent_equivalence, ?_, ?_⟩
  · intro p c n limit T U hT hU
    exact Trace.RefinedBy.trans (fun s hs => events_of_mem_nstepAll hs) hT hU
  · intro S U h
    obtain ⟨T, hST, -⟩ := Relation.TransGen.head'_iff.1 h
    exact refinedBy_of_exchanges hST.events_eq_nil h

/-- Instructions ahead of a return. -/
def straightFunction (code : List Instruction) : FunctionDef where
  name := "straight"
  params := []
  retTy := .int 8
  blocks := [{ label := "entry", phis := [], instructions := code, terminator := .ret (.reg 2) }]

def straightProgram (code : List Instruction) : Program
  | 0 => some (straightFunction code)
  | _ => none

theorem overlay_straightProgram (code code' : List Instruction) :
    (straightProgram code).overlay 0 (straightFunction code') = straightProgram code' := by
  funext id
  cases id <;> rfl

def straightStart : Config := ⟨.empty cellConfig, [⟨0, .entry, .empty, none, []⟩], Table.empty.insert 0 0, 1⟩

/-- The runs of the instructions for some steps. -/
def straightRuns (n : Nat) (code : List Instruction) : List Trace :=
  (nstepAll (straightProgram code) straightStart n 16).1

def makeCell : Instruction := .alloca 0 (.int 8) (.const (.int 8 1))

def makeFive : Instruction := .binOp 1 .add (.int 8) (.const (.int 8 2)) (.const (.int 8 3))

def makeSix : Instruction := .binOp 2 .mul (.int 8) (.const (.int 8 2)) (.const (.int 8 3))

theorem exchange_straightRuns {i j : Instruction} {rest : List Instruction}
    (h : ∀ t ∈ straightRuns 2 (j :: i :: rest), t.refines (straightRuns 2 (i :: j :: rest)) = true) :
    Exchange (straightRuns 2 (i :: j :: rest)) (straightRuns 2 (j :: i :: rest)) := by
  have hswap : (straightFunction (i :: j :: rest)).swapAt? .entry =
      some (straightFunction (j :: i :: rest)) := rfl
  have hreport := Config.validateSwap_eq (p := straightProgram (i :: j :: rest)) (c := straightStart)
    rfl rfl rfl rfl rfl hswap 16
  rw [overlay_straightProgram] at hreport
  exact ⟨_, _, _, _, hreport, List.all_eq_true.2 h, rfl, rfl⟩

/-- An allocation is moved behind one instruction and then behind another, and behind the first one and back. -/
theorem straightRuns_refines_of_chain :
    (∀ t ∈ straightRuns 4 [makeFive, makeCell, makeSix],
        t.refines (straightRuns 4 [makeCell, makeFive, makeSix]) = true) ∧
      (∀ u ∈ straightRuns 4 [makeFive, makeSix, makeCell],
        u.refines (straightRuns 4 [makeFive, makeCell, makeSix]) = true) ∧
      (∀ u ∈ straightRuns 4 [makeFive, makeSix, makeCell],
        u.refines (straightRuns 4 [makeCell, makeFive, makeSix]) = true) ∧
      ∀ t ∈ straightRuns 2 [makeCell, makeFive, makeSix],
        t.refines (straightRuns 2 [makeCell, makeFive, makeSix]) = true := by
  obtain ⟨-, htrans, hchain⟩ := equivalence_and_refines_of_chain
  have hfirst : ∀ t ∈ straightRuns 4 [makeFive, makeCell, makeSix],
      t.refines (straightRuns 4 [makeCell, makeFive, makeSix]) = true := by decide +kernel
  have hsecond : ∀ u ∈ straightRuns 4 [makeFive, makeSix, makeCell],
      u.refines (straightRuns 4 [makeFive, makeCell, makeSix]) = true := by decide +kernel
  have hthere : Exchange (straightRuns 2 [makeCell, makeFive, makeSix])
      (straightRuns 2 [makeFive, makeCell, makeSix]) :=
    exchange_straightRuns (by decide +kernel)
  have hback : Exchange (straightRuns 2 [makeFive, makeCell, makeSix])
      (straightRuns 2 [makeCell, makeFive, makeSix]) :=
    exchange_straightRuns (by decide +kernel)
  exact ⟨hfirst, hsecond, htrans _ _ _ _ _ _ hfirst hsecond,
    hchain _ _ (.tail (.single hthere) hback)⟩

end PointerSemantics
