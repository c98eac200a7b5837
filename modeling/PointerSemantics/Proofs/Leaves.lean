import Mathlib.Data.List.Nodup
import PointerSemantics.Proofs.Answers
import PointerSemantics.Proofs.Memory.Proposals

/-!
# The tree of runs

`Config.leaves` lists the complete runs of a state with their answers, in the order of the depth-first
search; no two of them are given the same answers (`Config.nodup_leaves`). A search fills its list with
leaves up to the limit and says whether some are left over.

The search adds the runs that end at once without looking at the limit. It does not exceed the limit all
the same, because at most one legal answer ends the execution (`Config.step_endsOnce`): an allocation at a
place that was offered succeeds, and where no place was offered only one placement is legal.
-/

namespace PointerSemantics

/-! ## Answers that end the execution -/

/-- There is one answer such that no other legal answer ends the execution. -/
def Ask.EndsOnce {α : Type} : Ask (Exec α) → Prop
  | .done _ => True
  | .ask point answer => ∃ last, ∀ a h, point.admits a = true → answer a = .error h → a = last

namespace Ask

variable {α β : Type}

theorem endsOnce_after {x : Exec α} {next : α → Ask (Exec β)} (h : ∀ a, (next a).EndsOnce) :
    (after x next).EndsOnce := by
  cases x with
  | error e => trivial
  | ok a => exact h a

theorem EndsOnce.map {x : Ask (Exec α)} (h : x.EndsOnce) (f : α → β) :
    (x.map (Except.map f)).EndsOnce := by
  cases x with
  | done a => trivial
  | ask point answer =>
    obtain ⟨last, hlast⟩ := h
    exact ⟨last, fun a e ha he => hlast a e ha (Exec.map_eq_error_iff.1 he)⟩

end Ask

section Effects

variable {m : Memory} {regs : Table Value}

/-- A legal placement that fails is the one that stands for running out of memory. -/
theorem Memory.eq_zero_of_place_error {kind : BlockKind} {size : Option Nat} {pick : Nat} {h : Halt}
    (hpick : pick < max (m.candidatesFor size).length 1)
    (herror : m.place kind size (m.candidatesFor size) pick = .error h) : pick = 0 := by
  obtain ⟨hnil, -⟩ := place_error hpick herror
  rw [hnil] at hpick
  exact Nat.lt_one_iff.1 hpick

theorem mallocEffect_endsOnce (size : Option Nat) : (mallocEffect m size).EndsOnce := by
  unfold mallocEffect
  split
  · trivial
  · refine ⟨.place 0, fun a h ha herror => ?_⟩
    cases a with
    | null => simp at herror
    | compare b => simp [ChoicePoint.admits] at ha
    | place i =>
      dsimp only at herror
      rw [Exec.bind_pure_eq_map, Exec.map_eq_error_iff] at herror
      rw [Memory.eq_zero_of_place_error (of_decide_eq_true ha) herror]

theorem allocaEffect_endsOnce (size : Option Nat) : (allocaEffect m size).EndsOnce := by
  refine ⟨.place 0, fun a h ha herror => ?_⟩
  cases a with
  | null => simp [ChoicePoint.admits] at ha
  | compare b => simp [ChoicePoint.admits] at ha
  | place i =>
    dsimp only at herror
    rw [Exec.bind_pure_eq_map, Exec.map_eq_error_iff] at herror
    rw [Memory.eq_zero_of_place_error (of_decide_eq_true ha) herror]

theorem Instruction.effect_endsOnce (i : Instruction) : (i.effect m regs).EndsOnce := by
  cases i with
  | icmp dst pred ty lhs rhs =>
    refine Ask.endsOnce_after fun v => ?_
    cases v with
    | some v => trivial
    | none =>
      refine ⟨.null, fun a h ha herror => ?_⟩
      cases a with
      | null | place i => simp [ChoicePoint.admits] at ha
      | compare b => simp at herror
  | malloc dst ty count => exact Ask.endsOnce_after mallocEffect_endsOnce
  | alloca dst ty count => exact Ask.endsOnce_after allocaEffect_endsOnce
  | _ => trivial

end Effects

theorem Config.step_endsOnce (p : Program) (c : Config) : (c.step p).EndsOnce := by
  unfold step
  cases c.stack with
  | nil => trivial
  | cons f rest =>
    refine Ask.endsOnce_after fun x => ?_
    obtain ⟨fn, code⟩ := x
    cases code with
    | terminator t => trivial
    | instruction i =>
      have hi : ((i.effect c.memory f.registers).map
          (Except.map fun e => c.advance f rest i e)).EndsOnce := i.effect_endsOnce.map _
      cases i with
      | call dst callee args => trivial
      | _ => exact hi

/-! ## Leaves -/

namespace Config

variable {p : Program} {c : Config} {n : Nat} {t : Trace} {script : List Choice}

/-- The run of a branch that ends. -/
def ended? (b : List Choice × Exec Config) : Option (List Choice × Trace) :=
  match b.2 with
  | .error h => some (b.1, ⟨[], .halted h, 1⟩)
  | .ok _ => none

/-- The complete runs of at most `n` steps with their answers. Those that end at once come first. -/
def leaves (p : Program) : Nat → Config → List (List Choice × Trace)
  | 0, c => [([], ⟨[], .running c, 0⟩)]
  | n + 1, c =>
    (c.step p).branches.filterMap ended? ++ (c.step p).branches.flatMap fun b =>
      match b.2 with
      | .ok d => (leaves p n d).map fun l => (b.1 ++ l.1, l.2.delay 1)
      | .error _ => []

/-- The runs behind a branch that goes on. -/
def leavesBehind (p : Program) (n : Nat) (b : List Choice × Exec Config) :
    List (List Choice × Trace) :=
  match b.2 with
  | .ok d => (leaves p n d).map fun l => (b.1 ++ l.1, l.2.delay 1)
  | .error _ => []

theorem leaves_succ : leaves p (n + 1) c =
    (c.step p).branches.filterMap ended? ++ (c.step p).branches.flatMap (leavesBehind p n) := rfl

/-- The leaves are what answers can be played. -/
theorem mem_leaves_iff : (script, t) ∈ leaves p n c ↔ c.Plays p n script t := by
  -- along the recursion of `leaves`: a branch ends, or its state has leaves of one step less
  induction n generalizing c script t with
  | zero =>
    rw [leaves, List.mem_singleton]
    constructor
    · rintro ⟨⟩
      exact .running
    · rintro ⟨⟩
      rfl
  | succ n ih =>
    rw [leaves_succ, List.mem_append, List.mem_filterMap, List.mem_flatMap]
    constructor
    · rintro (⟨⟨answers, r⟩, hb, hl⟩ | ⟨⟨answers, r⟩, hb, hl⟩)
      · cases r with
        | error h =>
          obtain ⟨rfl, rfl⟩ := Prod.mk.inj (Option.some.inj hl)
          exact .halted hb
        | ok d => simp [ended?] at hl
      · cases r with
        | error h => exact absurd hl List.not_mem_nil
        | ok d =>
          obtain ⟨⟨script', u⟩, hu, heq⟩ := List.mem_map.1 hl
          obtain ⟨rfl, rfl⟩ := Prod.mk.inj heq
          exact .step hb (ih.1 hu)
    · intro h
      cases h with
      | halted hb => exact .inl ⟨_, hb, rfl⟩
      | step hb hu => exact .inr ⟨_, hb, List.mem_map.2 ⟨_, ih.2 hu, rfl⟩⟩

theorem leaves_ne_nil (p : Program) (n : Nat) (c : Config) : leaves p n c ≠ [] := by
  have hlegal : Legal p Oracle.firstFit n c () := legal_of_admitted fun point _ => point.admits_firstFit
  exact List.ne_nil_of_mem (mem_leaves_iff.2 (plays_of_legal hlegal))

/-! ## No answers are played twice -/

/-- The runs of a branch. -/
def leavesOf (p : Program) (n : Nat) (b : List Choice × Exec Config) : List (List Choice × Trace) :=
  (ended? b).toList ++ leavesBehind p n b

theorem leaves_perm : (leaves p (n + 1) c).Perm ((c.step p).branches.flatMap (leavesOf p n)) := by
  rw [leaves_succ]
  induction (c.step p).branches with
  | nil => exact .nil
  | cons b rest ih =>
    obtain ⟨answers, r⟩ := b
    cases r with
    | error h => exact ih.cons _
    | ok d => exact (List.perm_append_comm_assoc _ _ _).trans (ih.append_left _)

/-- The answers of a run of a branch begin with those of the branch. -/
theorem exists_append_of_mem_leavesOf {b : List Choice × Exec Config} {l : List Choice × Trace}
    (h : l ∈ leavesOf p n b) : ∃ script, b.1 ++ script = l.1 := by
  obtain ⟨answers, r⟩ := b
  cases r with
  | error e =>
    obtain rfl := List.mem_singleton.1 h
    exact ⟨[], List.append_nil _⟩
  | ok d =>
    obtain ⟨l', -, rfl⟩ := List.mem_map.1 h
    exact ⟨l'.1, rfl⟩

theorem nodup_leaves (p : Program) (n : Nat) (c : Config) : ((leaves p n c).map (·.1)).Nodup := by
  induction n generalizing c with
  | zero => exact List.nodup_singleton _
  | succ n ih =>
    rw [(leaves_perm.map _).nodup_iff, List.map_flatMap, List.nodup_flatMap]
    constructor
    · rintro ⟨answers, r⟩ -
      cases r with
      | error h => exact List.nodup_singleton _
      | ok d =>
        have hscripts := (ih d).map (List.append_right_injective answers)
        rw [List.map_map] at hscripts
        show (((leaves p n d).map fun l => (answers ++ l.1, l.2.delay 1)).map (·.1)).Nodup
        rw [List.map_map]
        exact hscripts
    · refine (c.step p).pairwise_branches.imp fun {b b'} hne => List.disjoint_left.2 ?_
      intro script hs hs'
      obtain ⟨l, hl, rfl⟩ := List.mem_map.1 hs
      obtain ⟨l', hl', heq⟩ := List.mem_map.1 hs'
      obtain ⟨s, hs⟩ := exists_append_of_mem_leavesOf hl
      obtain ⟨s', hs'⟩ := exists_append_of_mem_leavesOf hl'
      exact hne s s' (hs.trans (heq.symm.trans hs'.symm))

end Config

end PointerSemantics
