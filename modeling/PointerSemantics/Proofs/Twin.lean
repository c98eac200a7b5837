import PointerSemantics.Proofs.Blind
import PointerSemantics.Proofs.Memory.Proposals
import PointerSemantics.Proofs.Runs
import PointerSemantics.Twin

/-!
# Placement cannot be observed

The twin runs of a blind program never part, and at each step their states are equal but for the bases
of blocks, which are twin addresses of the same set (`Twin.ne_divergesAt_and_sameButBases`).

Two things carry the induction. What a step does to states that are equal once bases are forgotten is
equal once bases are forgotten, as the question and for each answer (`Config.step_erase`). And where a
step asks for a place, every legal place leads to the same result once bases are forgotten
(`Config.step_unplaced`), so each run may take its own.
-/

namespace PointerSemantics

/-! ## Policies -/

namespace AddressPolicy

theorem pick_lt (policy : AddressPolicy) (n : Nat) : policy.pick n < max n 1 := by
  unfold pick
  split <;> omega

/-- Taking the place from a policy keeps an answer legal. -/
theorem admits_override (policy : AddressPolicy) {point : ChoicePoint} {c : Choice}
    (h : point.admits c = true) : point.admits (policy.override point c) = true := by
  cases c with
  | null => exact h
  | compare b => exact h
  | place i =>
    cases point with
    | malloc size candidates => exact decide_eq_true (policy.pick_lt candidates.length)
    | alloca size candidates => exact decide_eq_true (policy.pick_lt candidates.length)
    | pointerCompare pred => simp [ChoicePoint.admits] at h

end AddressPolicy

/-! ## Answers that name a place -/

/-- Seen through a function, all legal places lead to the same result. -/
def Ask.Unplaced {α β : Type} (F : α → β) : Ask α → Prop
  | .done _ => True
  | .ask point answer => ∀ i j, point.admits (.place i) = true → point.admits (.place j) = true →
    F (answer (.place i)) = F (answer (.place j))

namespace Ask

variable {α β γ δ : Type}

theorem unplaced_after {x : Exec α} {next : α → Ask (Exec β)} {F : Exec β → γ}
    (h : ∀ a, (next a).Unplaced F) : (after x next).Unplaced F := by
  cases x with
  | error e => trivial
  | ok a => exact h a

theorem Unplaced.map {x : Ask α} {f : α → β} {F : α → γ} {G : β → δ} (h : x.Unplaced F)
    (hfG : ∀ a b, F a = F b → G (f a) = G (f b)) : (x.map f).Unplaced G := by
  cases x with
  | done a => trivial
  | ask point answer =>
    intro i j hi hj
    exact hfG _ _ (h i j hi hj)

end Ask

section Effects

variable {m : Memory} {regs : Table Value}

theorem mallocEffect_unplaced (size : Option Nat) :
    (mallocEffect m size).Unplaced (Except.map (Effect.erase .bases)) := by
  unfold mallocEffect
  split
  · trivial
  · intro i j hi hj
    have hbases := Memory.place_bases (m := m) .heap (of_decide_eq_true hi) (of_decide_eq_true hj)
    refine Exec.map_bind_congr hbases fun x y hxy => ?_
    obtain ⟨hid, hmemory⟩ := Prod.mk.inj hxy
    exact congrArg Except.ok (by simp only [Effect.erase, Effect.binding, hid, hmemory])

theorem allocaEffect_unplaced (size : Option Nat) :
    (allocaEffect m size).Unplaced (Except.map (Effect.erase .bases)) := by
  intro i j hi hj
  have hbases := Memory.place_bases (m := m) .stack (of_decide_eq_true hi) (of_decide_eq_true hj)
  refine Exec.map_bind_congr hbases fun x y hxy => ?_
  obtain ⟨hid, hmemory⟩ := Prod.mk.inj hxy
  exact congrArg Except.ok (by simp only [Effect.erase, hid, hmemory])

theorem Instruction.effect_unplaced (i : Instruction) :
    (i.effect m regs).Unplaced (Except.map (Effect.erase .bases)) := by
  cases i with
  | icmp dst pred ty lhs rhs =>
    refine Ask.unplaced_after fun v => ?_
    cases v with
    | some v => trivial
    | none =>
      intro i j hi _
      simp [ChoicePoint.admits] at hi
  | malloc dst ty count => exact Ask.unplaced_after mallocEffect_unplaced
  | alloca dst ty count => exact Ask.unplaced_after allocaEffect_unplaced
  | _ => trivial

end Effects

namespace Config

variable {p : Program} {c : Config}

/-- Wherever a new block goes, the step leads to the same state but for bases. -/
theorem step_unplaced : (c.step p).Unplaced (Except.map (erase .bases)) := by
  unfold step
  cases c.stack with
  | nil => trivial
  | cons f rest =>
    refine Ask.unplaced_after fun x => ?_
    obtain ⟨fn, code⟩ := x
    cases code with
    | terminator t => trivial
    | instruction i =>
      have hi : ((i.effect c.memory f.registers).map fun x =>
          x.map fun y => c.advance f rest i y).Unplaced (Except.map (erase .bases)) := by
        refine i.effect_unplaced.map fun x y hxy => ?_
        rw [map_advance fun _ => erase_advance, hxy, ← map_advance fun _ => erase_advance]
      cases i with
      | call dst callee args => trivial
      | _ => exact hi

end Config

/-! ## States of twin runs -/

/-- The states are equal but for the bases of blocks, and a block has its base in both among the same
twin addresses. -/
structure Config.SameButBases (l r : Config) : Prop where
  erase_eq : l.erase .bases = r.erase .bases
  base_mem : ∀ id b b', l.memory.get? id = some b → r.memory.get? id = some b' →
    b.candidates = b'.candidates ∧ b.base ∈ b.candidates ∧ b'.base ∈ b.candidates

namespace Twin

variable {σ : Type} {p : Program} {o : Oracle σ} {left right : AddressPolicy} {l r : Config} {s : σ}

/-- The states of both runs and of the oracle after `n` steps, if both runs go on for so long. -/
def states (p : Program) (o : Oracle σ) (left right : AddressPolicy) :
    Nat → Config → Config → σ → Option ((Config × Config) × σ)
  | 0, l, r, s => some ((l, r), s)
  | n + 1, l, r, s =>
    match answer o left right s (l.step p) (r.step p) with
    | (some (.ok l, .ok r), s) => states p o left right n l r s
    | _ => none

/-- A comparison goes on from the states of the runs. -/
theorem compareFrom_of_states {n : Nat} {l' r' : Config} {s' : σ}
    (h : states p o left right n l r s = some ((l', r'), s')) (budget steps : Nat) :
    compareFrom p o left right (n + budget) steps l r s =
      compareFrom p o left right budget (steps + n) l' r' s' := by
  induction n generalizing l r s steps with
  | zero =>
    obtain ⟨⟨rfl, rfl⟩, rfl⟩ : (l = l' ∧ r = r') ∧ s = s' := by simpa [states] using h
    rw [Nat.zero_add]
    rfl
  | succ n ih =>
    unfold states at h
    split at h
    · next l₁ r₁ s₁ heq =>
      rw [Nat.add_right_comm, compareFrom, heq]
      dsimp only
      rw [ih h, Nat.add_right_comm, Nat.add_assoc]
    · simp at h

/-- Questions that are equal seen through a function get both an answer, and the same one seen so,
wherever the policies put a block. -/
theorem answer_of_map_eq {α β : Type} {F : α → β} {x y : Ask α} (hxy : x.map F = y.map F)
    (hx : x.Unplaced F) (ho : o.Admitted) (left right : AddressPolicy) (s : σ) :
    ∃ a b s', answer o left right s x y = (some (a, b), s') ∧ F a = F b ∧ x.Yields a ∧ y.Yields b := by
  cases x with
  | done a =>
    cases y with
    | done b => exact ⟨a, b, s, rfl, Ask.done.inj hxy, rfl, rfl⟩
    | ask point g => simp [Ask.map] at hxy
  | ask point f =>
    cases y with
    | done b => simp [Ask.map] at hxy
    | ask point' g =>
      obtain ⟨rfl, hfg⟩ := Ask.ask.inj hxy
      have hc := ho point s
      have hl := left.admits_override hc
      have hr := right.admits_override hc
      -- the left answer may be replaced by the right one
      have hleft : F (f (left.override point (o.choose point s).1)) =
          F (f (right.override point (o.choose point s).1)) := by
        cases hchoice : (o.choose point s).1 with
        | null => rfl
        | compare b => rfl
        | place i =>
          rw [hchoice] at hl hr
          exact hx _ _ hl hr
      refine ⟨_, _, (o.choose point s).2, ?_, hleft.trans (congrFun hfg _), ⟨_, rfl⟩, ⟨_, rfl⟩⟩
      unfold answer
      dsimp only
      rw [if_pos hr]

/-! ## The relation between twins -/

/-- The states are equal but for bases, and neither holds a bare address. -/
structure Related (l r : Config) : Prop where
  erase_eq : l.erase .bases = r.erase .bases
  left : l.Blind
  right : r.Blind

theorem Related.sameButBases (h : Related l r) : l.SameButBases r := by
  refine ⟨h.erase_eq, fun id b b' hb hb' => ?_⟩
  have hblock : b.erase .bases = b'.erase .bases := by
    have hget := congrArg (fun c : Config => c.memory.get? id) h.erase_eq
    simp only [Config.erase, Memory.get?_erase, hb, hb', Option.map_some] at hget
    exact Option.some.inj hget
  have hcandidates : (b.erase .bases).candidates = (b'.erase .bases).candidates := by rw [hblock]
  change b.candidates = b'.candidates at hcandidates
  refine ⟨hcandidates, (h.left.sound.memory.wf.block id b hb).base_mem, ?_⟩
  rw [hcandidates]
  exact (h.right.sound.memory.wf.block id b' hb').base_mem

/-- One step of both: they end alike, or go on to states that are related again. -/
theorem Related.step (h : Related l r) (hp : Config.ProgramBlind p) (ho : o.Admitted)
    (left right : AddressPolicy) (s : σ) :
    (∃ e s', answer o left right s (l.step p) (r.step p) = (some (.error e, .error e), s')) ∨
      ∃ l' r' s', answer o left right s (l.step p) (r.step p) = (some (.ok l', .ok r'), s') ∧
        Related l' r' := by
  have hmap : (l.step p).map (Except.map (Config.erase .bases)) =
      (r.step p).map (Except.map (Config.erase .bases)) := by
    rw [← Config.step_erase (h.left.hides hp .bases), h.erase_eq,
      Config.step_erase (h.right.hides hp .bases)]
  obtain ⟨a, b, s', hanswer, hab, ha, hb⟩ :=
    answer_of_map_eq hmap Config.step_unplaced ho left right s
  cases a with
  | error e =>
    cases b with
    | error e' =>
      obtain rfl := Except.error.inj hab
      exact .inl ⟨e, s', hanswer⟩
    | ok r' => simp [Except.map] at hab
  | ok l' =>
    cases b with
    | error e' => simp [Except.map] at hab
    | ok r' =>
      refine .inr ⟨l', r', s', hanswer, Except.ok.inj hab, ?_, ?_⟩
      · exact (Config.steps_of_yields ha).blind hp h.left
      · exact (Config.steps_of_yields hb).blind hp h.right

/-- A comparison of related states follows them to related states, or finds that they end alike. -/
theorem Related.run (h : Related l r) (hp : Config.ProgramBlind p) (ho : o.Admitted)
    (left right : AddressPolicy) (s : σ) (n steps : Nat) :
    (∃ l' r' s', states p o left right n l r s = some ((l', r'), s') ∧ Related l' r' ∧
        (compareFrom p o left right n steps l r s).1 = .inconclusive (steps + n)) ∨
      states p o left right n l r s = none ∧
        ∃ k ≤ n, (compareFrom p o left right n steps l r s).1 = .equivalent (steps + k) := by
  induction n generalizing l r s steps with
  | zero => exact .inl ⟨l, r, s, rfl, h, rfl⟩
  | succ n ih =>
    rcases h.step hp ho left right s with ⟨e, s', hanswer⟩ | ⟨l', r', s', hanswer, h'⟩
    · refine .inr ⟨?_, 1, Nat.succ_pos n, ?_⟩
      · rw [states, hanswer]
      · rw [compareFrom, hanswer]
        dsimp only
        rw [if_pos]
        rw [Bool.and_eq_true]
        exact ⟨rfl, e.agrees_refl⟩
    · rw [states, compareFrom, hanswer]
      dsimp only
      rcases ih h' s' (steps + 1) with ⟨l₁, r₁, s₁, hstates, h₁, hrun⟩ | ⟨hstates, k, hk, hrun⟩
      · refine .inl ⟨l₁, r₁, s₁, hstates, h₁, ?_⟩
        rw [hrun, Nat.add_right_comm, Nat.add_assoc]
      · refine .inr ⟨hstates, k + 1, Nat.succ_le_succ hk, ?_⟩
        rw [hrun, Nat.add_right_comm, Nat.add_assoc]

/-- The twin runs of a blind program never part. At each step they either have ended in the same way,
or their states are equal but for the bases of blocks, chosen among the same twin addresses. -/
theorem ne_divergesAt_and_sameButBases {c : Config} {entry : FunctionId} {args : List Value}
    {config : MemConfig} (hp : ∀ id fn, p id = some fn → fn.isBlind = true)
    (hargs : ∀ q, Value.ptr q ∈ args → q = .null)
    (hinitial : Config.initial p entry args config = .ok c) (ho : o.Admitted)
    (left right : AddressPolicy) (s : σ) :
    (∀ budget step cause, (compare p o left right c budget s).1 ≠ .divergesAt step cause) ∧
      ∀ n, match states p o left right n c c s with
        | some ((l, r), _) => l.SameButBases r
        | none => ∃ k ≤ n, (compare p o left right c n s).1 = .equivalent k := by
  have hblind : c.Blind := Config.blind_initial hinitial hargs
  have hc : Related c c := ⟨rfl, hblind, hblind⟩
  constructor
  · intro budget step cause
    unfold compare compareConfigs
    rcases hc.run hp ho left right s budget 0 with ⟨l, r, s', -, -, hrun⟩ | ⟨-, k, -, hrun⟩
    · rw [hrun]
      exact nofun
    · rw [hrun]
      exact nofun
  · intro n
    unfold compare compareConfigs
    rcases hc.run hp ho left right s n 0 with ⟨l, r, s', hstates, h, -⟩ | ⟨hstates, k, hk, hrun⟩
    · rw [hstates]
      exact h.sameButBases
    · rw [hstates]
      exact ⟨k, hk, by rw [hrun, Nat.zero_add]⟩

/-- After four steps the cells lie first in one run and last in the other. -/
theorem cell_ne_divergesAt_and_sameButBases :
    (∀ budget step cause,
      (compare cellProgram .firstFit .first .last (cellStart 0) budget ()).1 ≠ .divergesAt step cause) ∧
      ∃ l r, states cellProgram .firstFit .first .last 4 (cellStart 0) (cellStart 0) () =
        some ((l, r), ()) ∧ l ≠ r ∧ l.SameButBases r := by
  have hp : ∀ id fn, cellProgram id = some fn → fn.isBlind = true := by
    intro id fn hfn
    match id with
    | 0 => obtain rfl := Option.some.inj hfn; decide
    | 1 => obtain rfl := Option.some.inj hfn; decide
    | _ + 2 => simp [cellProgram] at hfn
  have hargs : ∀ q, Value.ptr q ∈ [Value.num 8 5] → q = .null := by
    intro q hq
    simp at hq
  have hinitial : Config.initial cellProgram 0 [.num 8 5] cellConfig = .ok (cellStart 0) := rfl
  have hadmitted : Oracle.firstFit.Admitted := fun point _ => point.admits_firstFit
  obtain ⟨hverdict, hstates⟩ :=
    ne_divergesAt_and_sameButBases hp hargs hinitial hadmitted .first .last ()
  have hapart : (states cellProgram .firstFit .first .last 4 (cellStart 0) (cellStart 0) ()).any
      (fun x => x.1.1 ≠ x.1.2) = true := by decide +kernel
  obtain ⟨⟨⟨l, r⟩, u⟩, hx, hne⟩ := (Option.any_eq_true _ _).1 hapart
  have h4 := hstates 4
  rw [hx] at h4
  exact ⟨hverdict, l, r, hx, of_decide_eq_true hne, h4⟩

end Twin

end PointerSemantics
