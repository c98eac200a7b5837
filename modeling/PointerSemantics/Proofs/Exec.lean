import PointerSemantics.Effect

/-!
# Computations taken apart

How a computation that may end the execution, or ask a question, came to its result. Later proofs
peel a `do` block step by step with `Exec.bind_eq_ok_iff`, and a question with `Ask.Yields` (any
answer) or membership in `Ask.results` (the legal answers).
-/

namespace PointerSemantics

namespace Exec

variable {α β : Type}

@[simp] theorem pure_eq_ok (a : α) : (pure a : Exec α) = .ok a := rfl

@[simp] theorem ok_bind (a : α) (f : α → Exec β) : ((.ok a : Exec α) >>= f) = f a := rfl

@[simp] theorem error_bind (h : Halt) (f : α → Exec β) : ((.error h : Exec α) >>= f) = .error h :=
  rfl

@[simp] theorem wrong_bind (ub : UndefinedBehavior) (f : α → Exec β) :
    ((wrong ub : Exec α) >>= f) = wrong ub := rfl

@[simp] theorem stuck_bind (r : StuckReason) (f : α → Exec β) :
    ((stuck r : Exec α) >>= f) = stuck r := rfl

@[simp] theorem typeMismatch_bind (s : String) (f : α → Exec β) :
    ((typeMismatch s : Exec α) >>= f) = typeMismatch s := rfl

@[simp] theorem wrong_ne_ok {ub : UndefinedBehavior} {a : α} : (wrong ub : Exec α) ≠ .ok a :=
  nofun

@[simp] theorem stuck_ne_ok {r : StuckReason} {a : α} : (stuck r : Exec α) ≠ .ok a := nofun

@[simp] theorem typeMismatch_ne_ok {s : String} {a : α} : (typeMismatch s : Exec α) ≠ .ok a := nofun

theorem bind_eq_ok_iff {ε : Type} {x : Except ε α} {f : α → Except ε β} {b : β} :
    x >>= f = .ok b ↔ ∃ a, x = .ok a ∧ f a = .ok b := by
  cases x with
  | error e => simp [bind, Except.bind]
  | ok a => simp [bind, Except.bind]

theorem bind_eq_error_iff {x : Exec α} {f : α → Exec β} {h : Halt} :
    x >>= f = .error h ↔ x = .error h ∨ ∃ a, x = .ok a ∧ f a = .error h := by
  cases x with
  | error k => simp
  | ok a => simp

theorem bind_pure_eq_map (x : Exec α) (f : α → β) :
    (x >>= fun a => pure (f a)) = Except.map f x := by
  cases x <;> rfl

theorem map_eq_ok_iff {x : Exec α} {f : α → β} {b : β} :
    Except.map f x = .ok b ↔ ∃ a, x = .ok a ∧ f a = b := by
  cases x <;> simp [Except.map]

theorem map_eq_error_iff {x : Exec α} {f : α → β} {h : Halt} :
    Except.map f x = .error h ↔ x = .error h := by
  cases x <;> simp [Except.map]

theorem map_ofMemory (x : Except MemError α) (f : α → β) :
    Except.map f (ofMemory x) = ofMemory (Except.map f x) := by
  cases x <;> rfl

/-- Two computations have results with the same image if they begin with results of the same image and
go on alike from those. -/
theorem map_bind_congr {γ δ : Type} {x y : Exec α} {f g : α → Exec β} {F : α → γ} {G : β → δ}
    (hxy : Except.map F x = Except.map F y)
    (h : ∀ a b, F a = F b → Except.map G (f a) = Except.map G (g b)) :
    Except.map G (x >>= f) = Except.map G (y >>= g) := by
  cases x with
  | error h =>
    cases y with
    | error k =>
      simp only [Except.map, Except.error.injEq] at hxy
      rw [hxy]
      rfl
    | ok b => simp [Except.map] at hxy
  | ok a =>
    cases y with
    | error k => simp [Except.map] at hxy
    | ok b =>
      simp only [Except.map, Except.ok.injEq] at hxy
      exact h a b hxy

theorem map_bind_congr_right {γ : Type} {x : Exec α} {f g : α → Exec β} {G : β → γ}
    (h : ∀ a, x = .ok a → Except.map G (f a) = Except.map G (g a)) :
    Except.map G (x >>= f) = Except.map G (x >>= g) := by
  cases x with
  | error e => rfl
  | ok a => exact h a rfl

theorem orStuck_eq_ok_iff {r : StuckReason} {x : Option α} {a : α} :
    orStuck r x = .ok a ↔ x = some a := by
  cases x <;> simp [orStuck]

theorem ofMemory_eq_ok_iff {x : Except MemError α} {a : α} : ofMemory x = .ok a ↔ x = .ok a := by
  cases x <;> simp [ofMemory]

end Exec

/-- The first fit is a legal answer to every question. -/
theorem ChoicePoint.admits_firstFit (point : ChoicePoint) :
    point.admits point.firstFit = true := by
  cases point with
  | malloc size candidates =>
    have h : 0 < max candidates.length 1 := by omega
    exact decide_eq_true h
  | alloca size candidates =>
    have h : 0 < max candidates.length 1 := by omega
    exact decide_eq_true h
  | pointerCompare pred => rfl

namespace Ask

variable {α β γ : Type}

/-- Some answer, legal or not, gives the result. -/
def Yields (x : Ask α) (a : α) : Prop :=
  match x with
  | done b => b = a
  | ask _ answer => ∃ c, answer c = a

@[simp] theorem yields_done {a b : α} : (done b).Yields a ↔ b = a := .rfl

@[simp] theorem yields_ask {point : ChoicePoint} {answer : Choice → α} {a : α} :
    (ask point answer).Yields a ↔ ∃ c, answer c = a := .rfl

@[simp] theorem mem_results_done {a b : α} : a ∈ (done b).results ↔ a = b := List.mem_singleton

theorem mem_results_ask {point : ChoicePoint} {answer : Choice → α} {a : α} :
    a ∈ (ask point answer).results ↔ ∃ c, point.admits c = true ∧ answer c = a := by
  simp only [results, List.mem_map, point.mem_options_iff]

theorem yields_of_mem_results {x : Ask α} {a : α} (h : a ∈ x.results) : x.Yields a := by
  cases x with
  | done b => exact (List.mem_singleton.1 h).symm
  | ask point answer =>
    obtain ⟨c, -, hc⟩ := List.mem_map.1 h
    exact ⟨c, hc⟩

theorem yields_resolve {σ : Type} (o : Oracle σ) (s : σ) (x : Ask α) :
    x.Yields (o.resolve s x).1 := by
  cases x with
  | done a => rfl
  | ask point answer => exact ⟨_, rfl⟩

theorem yields_map {x : Ask α} {f : α → β} {b : β} :
    (x.map f).Yields b ↔ ∃ a, x.Yields a ∧ f a = b := by
  cases x with
  | done a => simp [map]
  | ask point answer =>
    constructor
    · rintro ⟨c, hc⟩
      exact ⟨_, ⟨c, rfl⟩, hc⟩
    · rintro ⟨_, ⟨c, rfl⟩, hc⟩
      exact ⟨c, hc⟩

theorem yields_map_error_iff {x : Ask (Exec α)} {f : α → β} {h : Halt} :
    (x.map (Except.map f)).Yields (.error h) ↔ x.Yields (.error h) := by
  rw [yields_map]
  constructor
  · rintro ⟨a, ha, herror⟩
    rwa [Exec.map_eq_error_iff.1 herror] at ha
  · exact fun hx => ⟨_, hx, rfl⟩

theorem mem_results_map {x : Ask α} {f : α → β} {b : β} :
    b ∈ (x.map f).results ↔ ∃ a ∈ x.results, f a = b := by
  cases x with
  | done a => simp [map, results, eq_comm]
  | ask point answer =>
    rw [map, results, results, List.mem_map]
    constructor
    · rintro ⟨c, hc, hb⟩
      exact ⟨_, List.mem_map_of_mem hc, hb⟩
    · rintro ⟨a, ha, hb⟩
      obtain ⟨c, hc, rfl⟩ := List.mem_map.1 ha
      exact ⟨c, hc, hb⟩

theorem map_map (x : Ask α) (f : α → β) (g : β → γ) :
    (x.map f).map g = x.map fun a => g (f a) := by
  cases x <;> rfl

theorem point?_map (x : Ask α) (f : α → β) : (x.map f).point? = x.point? := by
  cases x <;> rfl

/-! ### Going on -/

theorem map_after (x : Exec α) (next : α → Ask (Exec β)) (f : β → γ) :
    (after x next).map (Except.map f) = after x fun a => (next a).map (Except.map f) := by
  cases x <;> rfl

theorem after_congr {x : Exec α} {f g : α → Ask (Exec β)} (h : ∀ a, x = .ok a → f a = g a) :
    after x f = after x g := by
  cases x with
  | error e => rfl
  | ok a => exact h a rfl

theorem after_bind (x : Exec α) (f : α → Exec β) (next : β → Ask (Exec γ)) :
    after (x >>= f) next = after x fun a => after (f a) next := by
  cases x <;> rfl

theorem after_map (x : Exec α) (f : α → β) (next : β → Ask (Exec γ)) :
    after (x.map f) next = after x fun a => next (f a) := by
  cases x <;> rfl

theorem done_bind (x : Exec α) (f : α → Exec β) :
    (done (x >>= f) : Ask (Exec β)) = after x fun a => done (f a) := by
  cases x <;> rfl

theorem done_map (x : Exec α) (f : α → β) :
    (done (x.map f) : Ask (Exec β)) = after x fun a => done (.ok (f a)) := by
  cases x <;> rfl

theorem yields_after {x : Exec α} {next : α → Ask (Exec β)} {b : β} :
    (after x next).Yields (.ok b) ↔ ∃ a, x = .ok a ∧ (next a).Yields (.ok b) := by
  cases x <;> simp [after]

/-- Every question has a legal answer. -/
theorem results_ne_nil (x : Ask α) : x.results ≠ [] := by
  cases x with
  | done a => simp [results]
  | ask point answer =>
    intro h
    have hnil : point.options = [] := List.map_eq_nil_iff.1 h
    have hfit := (point.mem_options_iff _).2 point.admits_firstFit
    rw [hnil] at hfit
    exact List.not_mem_nil hfit

end Ask

end PointerSemantics
