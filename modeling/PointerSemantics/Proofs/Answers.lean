import PointerSemantics.Proofs.Runs

/-!
# The answers of a run

A recording of one step holds one question at most (`Config.length_probe_le`), and the replays of its legal
answers are the successors of the state, whatever oracle was recorded (`Config.probed_eq_successors`).

`Config.asked` is what an oracle was asked in a run and what it answered. Answers fix a run, legal or not:
`Config.Replays` says which trace a script leads to that begins with the answers to some questions. A run
replays what was asked in it (`replays_nstep`), so a recording can be played back
(`nstep_scripted_of_recording`).

`Config.Plays` is the same for legal answers, along the branches of each step: a run that was answered
legally plays its own answers (`plays_of_legal`), and what is played can be replayed
(`Plays.exists_replays`).
-/

namespace PointerSemantics

/-! ## One question -/

theorem Choice.nodup_placements (n : Nat) : (placements n).Nodup :=
  List.pairwise_map.2 (List.nodup_range.imp fun hne h => hne (Choice.place.inj h))

/-- No legal answer is listed twice. -/
theorem ChoicePoint.nodup_options (point : ChoicePoint) : point.options.Nodup := by
  cases point with
  | malloc size candidates =>
    refine List.nodup_cons.2 ⟨?_, Choice.nodup_placements _⟩
    simp [Choice.placements]
  | alloca size candidates => exact Choice.nodup_placements _
  | pointerCompare pred => simp [options]

namespace Ask

variable {α β : Type}

/-- The legal results, each with the answers that lead to it. -/
def branches : Ask α → List (List Choice × α)
  | done a => [([], a)]
  | ask point answer => point.options.map fun c => ([c], answer c)

theorem map_branches (x : Ask α) : x.branches.map (·.2) = x.results := by
  cases x with
  | done a => rfl
  | ask point answer => exact List.map_map

/-- Neither list of answers of two branches begins the other. -/
theorem pairwise_branches (x : Ask α) :
    x.branches.Pairwise fun b b' => ∀ l l', b.1 ++ l ≠ b'.1 ++ l' := by
  cases x with
  | done a => exact List.pairwise_singleton _ _
  | ask point answer =>
    refine List.pairwise_map.2 (point.nodup_options.imp fun hne l l' h => hne ?_)
    exact (List.cons.inj h).1

end Ask

/-- What an oracle is asked by one computation, with its answer. -/
def Oracle.answered {σ α : Type} (o : Oracle σ) (s : σ) : Ask α → List (ChoicePoint × Choice)
  | .done _ => []
  | .ask point _ => [(point, (o.choose point s).1)]

namespace Ask

variable {α : Type} {x : Ask α} {a : α}

/-- A script that begins with the answers leads to the result, is asked the questions, and is left behind
the answers. -/
structure Replays (x : Ask α) (questions : List (ChoicePoint × Choice)) (a : α) : Prop where
  resolve_eq : ∀ rest, Oracle.scripted.resolve (questions.map (·.2) ++ rest) x = (a, rest)
  answered_eq : ∀ rest, Oracle.scripted.answered (questions.map (·.2) ++ rest) x = questions

theorem replays_done (a : α) : (done a).Replays [] a := ⟨fun _ => rfl, fun _ => rfl⟩

theorem replays_ask (point : ChoicePoint) (answer : Choice → α) (c : Choice) :
    (ask point answer).Replays [(point, c)] (answer c) := ⟨fun _ => rfl, fun _ => rfl⟩

/-- The answers of a branch lead along that branch. -/
theorem exists_replays_of_mem_branches {answers : List Choice} (h : (answers, a) ∈ x.branches) :
    ∃ questions, x.Replays questions a ∧ questions.map (·.2) = answers ∧
      ∀ y ∈ questions, y.1.admits y.2 = true := by
  cases x with
  | done b =>
    obtain ⟨rfl, rfl⟩ := Prod.mk.inj (List.mem_singleton.1 h)
    exact ⟨[], replays_done _, rfl, nofun⟩
  | ask point answer =>
    obtain ⟨c, hc, heq⟩ := List.mem_map.1 h
    obtain ⟨rfl, rfl⟩ := Prod.mk.inj heq
    refine ⟨[(point, c)], replays_ask point answer c, rfl, ?_⟩
    exact List.forall_mem_singleton.2 ((point.mem_options_iff c).1 hc)

end Ask

namespace Oracle

variable {σ α : Type} {o : Oracle σ} {s : σ}

/-- One computation asks one question at most. -/
theorem length_answered_le (o : Oracle σ) (s : σ) (x : Ask α) : (o.answered s x).length ≤ 1 := by
  cases x <;> simp [answered]

/-- What an oracle answers leads to what it was resolved to, legal or not. -/
theorem replays_answered (o : Oracle σ) (s : σ) (x : Ask α) :
    x.Replays (o.answered s x) (o.resolve s x).1 := by
  cases x with
  | done a => exact Ask.replays_done a
  | ask point answer => exact Ask.replays_ask point answer _

theorem resolve_recording (o : Oracle σ) (s : σ) (log : List (ChoicePoint × Choice)) (x : Ask α) :
    o.recording.resolve (s, log) x =
      ((o.resolve s x).1, (o.resolve s x).2, (o.answered s x).reverse ++ log) := by
  cases x <;> rfl

/-- Legal answers to one computation lead along one of its branches. -/
theorem mem_branches (x : Ask α) (h : ∀ y ∈ o.answered s x, y.1.admits y.2 = true) :
    ((o.answered s x).map (·.2), (o.resolve s x).1) ∈ x.branches := by
  cases x with
  | done a => exact List.mem_singleton_self _
  | ask point answer =>
    exact List.mem_map.2 ⟨_, (point.mem_options_iff _).2 (h _ (List.mem_singleton_self _)), rfl⟩

end Oracle

/-! ## Probing a step -/

namespace Config

variable {σ : Type}

/-- A step that is recorded under an oracle: its result, and what it asked with the answers, in order. -/
def probe (p : Program) (o : Oracle σ) (c : Config) (s : σ) :
    Exec Config × List (ChoicePoint × Choice) :=
  let recorded := o.recording.resolve (s, []) (c.step p)
  (recorded.1, recorded.2.2.reverse)

/-- The results of a step as running it finds them. It is recorded once; if something was asked, it is run
again for each legal answer to the first question, with that answer as its script. -/
def probed (p : Program) (o : Oracle σ) (c : Config) (s : σ) : List (Exec Config) :=
  match (c.probe p o s).2.head? with
  | none => [(c.probe p o s).1]
  | some (point, _) => point.options.map fun choice => (Oracle.scripted.resolve [choice] (c.step p)).1

theorem probe_eq (p : Program) (o : Oracle σ) (c : Config) (s : σ) :
    c.probe p o s = ((o.resolve s (c.step p)).1, o.answered s (c.step p)) := by
  unfold probe
  simp only [o.resolve_recording, List.append_nil, List.reverse_reverse]

/-- No recording of a step holds a second question. -/
theorem length_probe_le (p : Program) (o : Oracle σ) (c : Config) (s : σ) :
    (c.probe p o s).2.length ≤ 1 := by
  rw [probe_eq]
  exact o.length_answered_le s (c.step p)

/-- Whatever oracle probes the step, its replays are all legal results, in the order of the answers. -/
theorem probed_eq_successors (p : Program) (o : Oracle σ) (c : Config) (s : σ) :
    c.probed p o s = c.successors p := by
  unfold probed successors
  rw [probe_eq]
  cases c.step p with
  | done r => rfl
  | ask point answer => rfl

end Config

/-! ## Runs -/

namespace Config

variable {σ : Type} {p : Program} {o : Oracle σ} {c d : Config} {s : σ} {n : Nat} {t : Trace}
  {script : List Choice}

/-- What an oracle is asked in a run, with its answers, in order. -/
def asked (p : Program) (o : Oracle σ) (n : Nat) (c : Config) (s : σ) : List (ChoicePoint × Choice) :=
  (nstep p o.recording n c (s, [])).2.2.reverse

/-- All answers in a run are legal. -/
def Legal (p : Program) (o : Oracle σ) (n : Nat) (c : Config) (s : σ) : Prop :=
  ∀ x ∈ asked p o n c s, x.1.admits x.2 = true

/-- Recording does not change a run, and keeps what was recorded before. -/
theorem nstep_recording (log : List (ChoicePoint × Choice)) :
    nstep p o.recording n c (s, log) =
      ((nstep p o n c s).1, (nstep p o n c s).2, (asked p o n c s).reverse ++ log) := by
  unfold asked
  rw [List.reverse_reverse]
  induction n generalizing c s log with
  | zero => rfl
  | succ n ih =>
    have hrecording := fun log => o.resolve_recording s log (c.step p)
    cases hr : o.resolve s (c.step p) with
    | mk r s' =>
      cases r with
      | error h =>
        rw [nstep_of_error hr, nstep_of_error (by rw [hrecording, hr]),
          nstep_of_error (by rw [hrecording, hr]), List.append_nil]
      | ok d =>
        rw [nstep_of_ok hr, nstep_of_ok (by rw [hrecording, hr]),
          nstep_of_ok (by rw [hrecording, hr]), ih, ih (_ ++ []), List.append_nil, List.append_assoc]

@[simp] theorem asked_zero : asked p o 0 c s = [] := rfl

theorem asked_of_error {h : Halt} {s' : σ} (hr : o.resolve s (c.step p) = (.error h, s')) :
    asked p o (n + 1) c s = o.answered s (c.step p) := by
  unfold asked
  rw [nstep_of_error (by rw [o.resolve_recording, hr]), List.append_nil, List.reverse_reverse]

theorem asked_of_ok {s' : σ} (hr : o.resolve s (c.step p) = (.ok d, s')) :
    asked p o (n + 1) c s = o.answered s (c.step p) ++ asked p o n d s' := by
  rw [asked, nstep_of_ok (by rw [o.resolve_recording, hr]), nstep_recording, List.append_nil,
    List.reverse_append, List.reverse_reverse, List.reverse_reverse]

theorem asked_one : asked p o 1 c s = o.answered s (c.step p) := by
  cases hr : o.resolve s (c.step p) with
  | mk r s' =>
    cases r with
    | error h => exact asked_of_error hr
    | ok d => rw [asked_of_ok hr, asked_zero, List.append_nil]

/-- A step asks one question at most. -/
theorem length_asked_le (p : Program) (o : Oracle σ) (n : Nat) (c : Config) (s : σ) :
    (asked p o n c s).length ≤ (nstep p o n c s).1.steps := by
  induction n generalizing c s with
  | zero => exact Nat.le_refl 0
  | succ n ih =>
    have hstep := o.length_answered_le s (c.step p)
    cases hr : o.resolve s (c.step p) with
    | mk r s' =>
      cases r with
      | error e =>
        rw [asked_of_error hr, nstep_of_error hr]
        exact hstep
      | ok d =>
        rw [asked_of_ok hr, nstep_of_ok hr, List.length_append, Nat.add_comm]
        exact Nat.add_le_add (ih d s') hstep

theorem legal_of_admitted (ho : o.Admitted) : Legal p o n c s := by
  induction n generalizing c s with
  | zero => exact nofun
  | succ n ih =>
    unfold Legal
    have hstep : ∀ x ∈ o.answered s (c.step p), x.1.admits x.2 = true := by
      cases c.step p with
      | done a => exact nofun
      | ask point answer => exact List.forall_mem_singleton.2 (ho point s)
    cases hr : o.resolve s (c.step p) with
    | mk r s' =>
      cases r with
      | error h =>
        rw [asked_of_error hr]
        exact hstep
      | ok d =>
        rw [asked_of_ok hr]
        exact List.forall_mem_append.2 ⟨hstep, ih⟩

/-! ## Replaying answers -/

/-- In a run of `n` steps a script that begins with the answers leads to the trace, is asked the questions,
and is left behind the answers. -/
structure Replays (p : Program) (n : Nat) (c : Config) (questions : List (ChoicePoint × Choice))
    (t : Trace) : Prop where
  nstep_eq : ∀ rest, nstep p .scripted n c (questions.map (·.2) ++ rest) = (t, rest)
  asked_eq : ∀ rest, asked p .scripted n c (questions.map (·.2) ++ rest) = questions

section Replays

variable {questions questions' : List (ChoicePoint × Choice)}

theorem replays_zero (p : Program) (c : Config) : c.Replays p 0 [] ⟨[], .running c, 0⟩ :=
  ⟨fun _ => rfl, fun _ => rfl⟩

theorem replays_of_error {h : Halt} (hr : (c.step p).Replays questions (.error h)) :
    c.Replays p (n + 1) questions ⟨[], .halted h, 1⟩ where
  nstep_eq rest := nstep_of_error (hr.resolve_eq rest)
  asked_eq rest := (asked_of_error (hr.resolve_eq rest)).trans (hr.answered_eq rest)

theorem replays_of_ok (hr : (c.step p).Replays questions (.ok d)) (hd : d.Replays p n questions' t) :
    c.Replays p (n + 1) (questions ++ questions') (t.delay 1) where
  nstep_eq rest := by
    rw [List.map_append, List.append_assoc, nstep_of_ok (hr.resolve_eq _), hd.nstep_eq]
  asked_eq rest := by
    rw [List.map_append, List.append_assoc, asked_of_ok (hr.resolve_eq _), hr.answered_eq, hd.asked_eq]

theorem replays_one {r : Exec Config} (hr : (c.step p).Replays questions r) :
    c.Replays p 1 questions ⟨[], .ofStep r, 1⟩ where
  nstep_eq rest := by rw [nstep_one, hr.resolve_eq]
  asked_eq rest := asked_one.trans (hr.answered_eq rest)

end Replays

/-- What was asked in a run can be replayed, however it was answered. -/
theorem replays_nstep (p : Program) (o : Oracle σ) (n : Nat) (c : Config) (s : σ) :
    c.Replays p n (asked p o n c s) (nstep p o n c s).1 := by
  induction n generalizing c s with
  | zero => exact replays_zero p c
  | succ n ih =>
    have hstep := o.replays_answered s (c.step p)
    cases hr : o.resolve s (c.step p) with
    | mk r s' =>
      rw [hr] at hstep
      cases r with
      | error e =>
        rw [asked_of_error hr, nstep_of_error hr]
        exact replays_of_error hstep
      | ok d =>
        rw [asked_of_ok hr, nstep_of_ok hr]
        exact replays_of_ok hstep (ih d s')

/-- A run under a recording oracle is the run under the oracle itself, with no more answers recorded than
steps taken, and the script of the recorded answers leads to the same trace and is used up. -/
theorem nstep_scripted_of_recording (p : Program) (o : Oracle σ) (n : Nat) (c : Config) (s : σ) :
    let recorded := nstep p o.recording n c (s, [])
    let choices := recorded.2.2.reverse.map (·.2)
    recorded.1 = (nstep p o n c s).1 ∧ recorded.2.1 = (nstep p o n c s).2 ∧
      choices.length ≤ recorded.1.steps ∧
      nstep p .scripted n c choices = (recorded.1, []) := by
  have hreplays := (replays_nstep p o n c s).nstep_eq []
  rw [List.append_nil] at hreplays
  dsimp only
  rw [nstep_recording, List.append_nil, List.reverse_reverse, List.length_map]
  exact ⟨rfl, rfl, length_asked_le p o n c s, hreplays⟩

/-! ## Playing legal answers -/

/-- The answers are legal in turn, all of them are asked for, and the trace is what they lead to. -/
inductive Plays (p : Program) : Nat → Config → List Choice → Trace → Prop
  | running {c : Config} : Plays p 0 c [] ⟨[], .running c, 0⟩
  | halted {n : Nat} {c : Config} {answers : List Choice} {h : Halt}
      (hr : (answers, .error h) ∈ (c.step p).branches) :
    Plays p (n + 1) c answers ⟨[], .halted h, 1⟩
  | step {n : Nat} {c d : Config} {answers script : List Choice} {t : Trace}
      (hr : (answers, .ok d) ∈ (c.step p).branches) (ht : Plays p n d script t) :
    Plays p (n + 1) c (answers ++ script) (t.delay 1)

/-- A run that is answered legally plays its answers. -/
theorem plays_of_legal (h : Legal p o n c s) :
    c.Plays p n ((asked p o n c s).map (·.2)) (nstep p o n c s).1 := by
  induction n generalizing c s with
  | zero => exact .running
  | succ n ih =>
    unfold Legal at h
    cases hr : o.resolve s (c.step p) with
    | mk r s' =>
      cases r with
      | error e =>
        rw [asked_of_error hr] at h ⊢
        rw [nstep_of_error hr]
        have hbranch := Oracle.mem_branches _ h
        rw [hr] at hbranch
        exact .halted hbranch
      | ok d =>
        rw [asked_of_ok hr] at h ⊢
        rw [nstep_of_ok hr, List.map_append]
        have hbranch := Oracle.mem_branches _ fun x hx => h x (List.mem_append_left _ hx)
        rw [hr] at hbranch
        exact .step hbranch (ih fun x hx => h x (List.mem_append_right _ hx))

theorem Plays.exists_replays (h : c.Plays p n script t) : ∃ questions,
    c.Replays p n questions t ∧ questions.map (·.2) = script ∧
      ∀ x ∈ questions, x.1.admits x.2 = true := by
  induction h with
  | running => exact ⟨[], replays_zero p _, rfl, nofun⟩
  | halted hr =>
    obtain ⟨questions, hquestions, hanswers, hlegal⟩ := Ask.exists_replays_of_mem_branches hr
    exact ⟨questions, replays_of_error hquestions, hanswers, hlegal⟩
  | step hr _ ih =>
    obtain ⟨questions, hquestions, rfl, hlegal⟩ := Ask.exists_replays_of_mem_branches hr
    obtain ⟨questions', hquestions', rfl, hlegal'⟩ := ih
    exact ⟨questions ++ questions', replays_of_ok hquestions hquestions', List.map_append,
      List.forall_mem_append.2 ⟨hlegal, hlegal'⟩⟩

/-- A script that begins with answers that are played leads to their trace, is asked for those answers and
is left behind them. -/
theorem Plays.nstep_scripted (h : c.Plays p n script t) (rest : List Choice) :
    nstep p .scripted n c (script ++ rest) = (t, rest) ∧
      (asked p .scripted n c (script ++ rest)).map (·.2) = script ∧
      Legal p .scripted n c (script ++ rest) := by
  obtain ⟨questions, hreplays, rfl, hlegal⟩ := h.exists_replays
  unfold Legal
  rw [hreplays.asked_eq]
  exact ⟨hreplays.nstep_eq rest, rfl, hlegal⟩

end Config

end PointerSemantics
