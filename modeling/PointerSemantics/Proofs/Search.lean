import Mathlib.Data.Set.Card
import PointerSemantics.Proofs.Leaves
import PointerSemantics.Proofs.Reachable

/-!
# The search is exact

`visit` fills the list of traces with leaves up to the limit (`visit_eq_fill`), and the loop over a stack
of states that wait does the same in finitely many turns (`WorkList.loop_search`). So the exploration
lists each complete run once, in the order of the search, and is cut off exactly if there are more
(`nstepAll_exact`).
-/

namespace PointerSemantics

/-! ## Filling up to the limit -/

namespace Exploration

variable {limit : Nat} {e : Exploration} {ts us : List Trace}

/-- Adds traces up to the limit, and notes whether some are left over. -/
def fill (limit : Nat) (e : Exploration) (ts : List Trace) : Exploration where
  found := (ts.take (limit - e.found.length)).reverse ++ e.found
  capped := e.capped || decide (limit < e.found.length + ts.length)

theorem length_found_fill (h : e.found.length ≤ limit) : (e.fill limit ts).found.length ≤ limit := by
  simp only [fill, List.length_append, List.length_reverse, List.length_take]
  omega

theorem fill_nil (h : e.found.length ≤ limit) : e.fill limit [] = e := by
  simp [fill, Nat.not_lt.2 h]

theorem fill_of_le (h : e.found.length + ts.length ≤ limit) :
    e.fill limit ts = ⟨ts.reverse ++ e.found, e.capped⟩ := by
  unfold fill
  rw [List.take_of_length_le (by omega), decide_eq_false (by omega), Bool.or_false]

theorem fill_of_full (h : limit ≤ e.found.length) (hts : ts ≠ []) :
    e.fill limit ts = { e with capped := true } := by
  have hpos : 0 < ts.length := List.length_pos_iff.2 hts
  unfold fill
  rw [Nat.sub_eq_zero_of_le h, decide_eq_true (by omega), Bool.or_true]
  rfl

theorem mk_found (h : e.capped = false) : (⟨e.found, false⟩ : Exploration) = e := by
  rw [← h]

theorem le_length_of_capped (h : e.capped = false) (hcapped : (e.fill limit ts).capped = true) :
    limit ≤ (e.fill limit ts).found.length := by
  simp only [fill, h, Bool.false_or, decide_eq_true_eq] at hcapped
  simp only [fill, List.length_append, List.length_reverse, List.length_take]
  omega

/-- Filling in two lots is filling with both in a row. -/
theorem fill_append (h : e.found.length ≤ limit) :
    (e.fill limit ts).fill limit us = e.fill limit (ts ++ us) := by
  have hlength : (e.fill limit ts).found.length = min limit (e.found.length + ts.length) := by
    simp only [fill, List.length_append, List.length_reverse, List.length_take]
    omega
  have hfound : ((e.fill limit ts).fill limit us).found = (e.fill limit (ts ++ us)).found := by
    show (us.take (limit - (e.fill limit ts).found.length)).reverse ++
      ((ts.take (limit - e.found.length)).reverse ++ e.found) =
        ((ts ++ us).take (limit - e.found.length)).reverse ++ e.found
    have hrest : limit - (e.fill limit ts).found.length = limit - e.found.length - ts.length := by omega
    rw [hrest, List.take_append, List.reverse_append, List.append_assoc]
  have hcapped : ((e.fill limit ts).fill limit us).capped = (e.fill limit (ts ++ us)).capped := by
    show (e.capped || decide (limit < e.found.length + ts.length) ||
      decide (limit < (e.fill limit ts).found.length + us.length)) =
        (e.capped || decide (limit < e.found.length + (ts ++ us).length))
    rw [Bool.or_assoc, ← Bool.decide_or, hlength, List.length_append]
    congr 2
    exact propext (by omega)
  cases hx : (e.fill limit ts).fill limit us
  cases hy : e.fill limit (ts ++ us)
  rw [hx, hy] at hfound hcapped
  exact congrArg₂ mk hfound hcapped

end Exploration

/-! ## What a visit adds -/

section Visit

variable {p : Program} {limit n k : Nat} {e : Exploration} {c : Config}

/-- The traces of runs that were begun `k` steps before. -/
def traces (k : Nat) (ls : List (List Choice × Trace)) : List Trace := ls.map fun l => l.2.delay k

theorem traces_append (ls ls' : List (List Choice × Trace)) :
    traces k (ls ++ ls') = traces k ls ++ traces k ls' := List.map_append

theorem traces_leaves_ne_nil : traces k (Config.leaves p n c) ≠ [] := fun h =>
  Config.leaves_ne_nil p n c (List.map_eq_nil_iff.1 h)

theorem traces_leaves_zero : traces k (Config.leaves p 0 c) = [⟨[], .running c, k⟩] := by
  simp [traces, Config.leaves, Trace.delay]

theorem traces_leavesBehind {answers : List Choice} {d : Config} :
    traces k (Config.leavesBehind p n (answers, .ok d)) = traces (k + 1) (Config.leaves p n d) := by
  unfold traces Config.leavesBehind
  rw [List.map_map]
  refine List.map_congr_left fun l _ => ?_
  rw [Function.comp_apply, Trace.delay_delay, Nat.add_comm]

/-- A list without repetitions yields one value at most if all elements that yield one are the same. -/
theorem length_filterMap_le_one {α β : Type} {f : α → Option β} {last : α} {as : List α}
    (hnodup : as.Nodup) (h : ∀ a ∈ as, ∀ b, f a = some b → a = last) : (as.filterMap f).length ≤ 1 := by
  induction as with
  | nil => exact Nat.zero_le 1
  | cons a as ih =>
    obtain ⟨hmem, hnodup⟩ := List.nodup_cons.1 hnodup
    obtain ⟨ha, has⟩ := List.forall_mem_cons.1 h
    cases hb : f a with
    | none =>
      rw [List.filterMap_cons_none hb]
      exact ih hnodup has
    | some b =>
      obtain rfl := ha b hb
      have hnil : as.filterMap f = [] := by
        refine List.filterMap_eq_nil_iff.2 fun x hx => Option.eq_none_iff_forall_ne_some.2 fun y hy => ?_
        exact hmem (has x hx y hy ▸ hx)
      rw [List.filterMap_cons_some hb, hnil]
      exact Nat.le_refl 1

/-- At most one run ends at once. -/
theorem length_ended_le_one (p : Program) (c : Config) :
    ((c.step p).branches.filterMap Config.ended?).length ≤ 1 := by
  have hends := c.step_endsOnce p
  cases hstep : c.step p with
  | done r => exact List.length_filterMap_le _ [([], r)]
  | ask point answer =>
    rw [hstep] at hends
    obtain ⟨last, hlast⟩ := hends
    rw [Ask.branches, List.filterMap_map]
    refine length_filterMap_le_one point.nodup_options fun a ha l hl => (?_ : a = last)
    cases hanswer : answer a with
    | error h => exact hlast a h ((point.mem_options_iff a).1 ha) hanswer
    | ok d => simp [Config.ended?, hanswer] at hl

theorem addHalted_branches (bs : List (List Choice × Exec Config)) :
    e.addHalted (k + 1) (bs.map (·.2)) =
      ⟨traces k (bs.filterMap Config.ended?) ++ e.found, e.capped⟩ := by
  unfold Exploration.addHalted
  induction bs with
  | nil => rfl
  | cons b bs ih =>
    obtain ⟨answers, r⟩ := b
    rw [List.map_cons, List.foldr_cons, ih]
    cases r with
    | error h =>
      show Exploration.mk (_ :: _) _ = Exploration.mk (_ :: _) _
      rw [Nat.add_comm k 1]
      rfl
    | ok d => rfl

/-- The runs that end at once stay within the limit. -/
theorem addHalted_eq_fill (h : e.found.length < limit) :
    e.addHalted (k + 1) (c.successors p) =
      e.fill limit (traces k ((c.step p).branches.filterMap Config.ended?)) := by
  have hone : (traces k ((c.step p).branches.filterMap Config.ended?)).length ≤ 1 := by
    rw [traces, List.length_map]
    exact length_ended_le_one p c
  -- one trace reads the same in both directions
  have hreverse : ∀ ts : List Trace, ts.length ≤ 1 → ts.reverse = ts := by
    intro ts hts
    match ts, hts with
    | [], _ => rfl
    | [t], _ => rfl
  rw [Config.successors, ← Ask.map_branches, addHalted_branches, Exploration.fill_of_le (by omega),
    hreverse _ hone]

theorem foldl_visitNext (hvisit : ∀ e d, e.found.length ≤ limit →
      visit p limit n (k + 1) e d = e.fill limit (traces (k + 1) (Config.leaves p n d)))
    (he : e.found.length ≤ limit) (bs : List (List Choice × Exec Config)) :
    (bs.map (·.2)).foldl (visitNext p limit n k) e =
      e.fill limit (traces k (bs.flatMap (Config.leavesBehind p n))) := by
  induction bs generalizing e with
  | nil => exact (Exploration.fill_nil he).symm
  | cons b bs ih =>
    rw [List.map_cons, List.foldl_cons, List.flatMap_cons, traces_append, ← Exploration.fill_append he]
    have hb : visitNext p limit n k e b.2 = e.fill limit (traces k (Config.leavesBehind p n b)) := by
      obtain ⟨answers, r⟩ := b
      cases r with
      | error h => exact (Exploration.fill_nil he).symm
      | ok d =>
        rw [traces_leavesBehind]
        exact hvisit e d he
    rw [hb, ih (Exploration.length_found_fill he)]

theorem visit_of_full (h : limit ≤ e.found.length) : visit p limit n k e c = { e with capped := true } := by
  unfold visit
  rw [if_pos h]

/-- A visit fills the list with the leaves of its state. -/
theorem visit_eq_fill (he : e.found.length ≤ limit) :
    visit p limit n k e c = e.fill limit (traces k (Config.leaves p n c)) := by
  induction n generalizing k e c with
  | zero =>
    rcases Nat.lt_or_ge e.found.length limit with hlt | hfull
    · rw [traces_leaves_zero, Exploration.fill_of_le hlt]
      unfold visit
      rw [if_neg (Nat.not_le.2 hlt)]
      rfl
    · rw [visit_of_full hfull, Exploration.fill_of_full hfull traces_leaves_ne_nil]
  | succ n ih =>
    rcases Nat.lt_or_ge e.found.length limit with hlt | hfull
    · have hvisit : ∀ e d, e.found.length ≤ limit →
          visit p limit n (k + 1) e d = e.fill limit (traces (k + 1) (Config.leaves p n d)) :=
        fun e d he => ih he
      rw [visit_succ, if_neg (Nat.not_le.2 hlt), addHalted_eq_fill hlt, Config.leaves_succ, traces_append,
        ← Exploration.fill_append he, Config.successors, ← Ask.map_branches,
        foldl_visitNext hvisit (Exploration.length_found_fill he)]
    · rw [visit_of_full hfull, Exploration.fill_of_full hfull traces_leaves_ne_nil]

/-- An exploration lists the first leaves, up to the limit. -/
theorem nstepAll_eq : nstepAll p c n limit =
    (((Config.leaves p n c).map (·.2)).take limit, decide (limit < (Config.leaves p n c).length)) := by
  have hvisit : visit p limit n 0 ⟨[], false⟩ c = _ := visit_eq_fill (Nat.zero_le limit)
  have htraces : traces 0 (Config.leaves p n c) = (Config.leaves p n c).map (·.2) := rfl
  unfold nstepAll
  rw [hvisit, htraces, Exploration.fill]
  simp

end Visit

/-! ## The search as a loop -/

/-- A search under way: the traces found, the last first, and the states that wait with the numbers of
steps that led to them, the next one first. -/
structure WorkList where
  found : List Trace
  waiting : List (Config × Nat)

namespace WorkList

variable {p : Program} {n limit : Nat}

/-- The states among the results of the step with this number. -/
def onward (steps : Nat) (results : List (Exec Config)) : List (Config × Nat) :=
  results.filterMap fun r => r.toOption.map (·, steps)

/-- Takes the next waiting state at each turn. At depth `n` it is a trace, above that depth the results
of its step that end are traces and the others wait; the search ends when no state waits, or when one
does and the limit is reached. Without an answer the turns ran out. -/
def search (p : Program) (n limit : Nat) : Nat → WorkList → Option (List Trace × Bool)
  | 0, _ => none
  | _ + 1, ⟨found, []⟩ => some (found.reverse, false)
  | turns + 1, ⟨found, (c, steps) :: waiting⟩ =>
    if limit ≤ found.length then some (found.reverse, true)
    else if steps = n then search p n limit turns ⟨⟨[], .running c, steps⟩ :: found, waiting⟩
    else
      let results := c.successors p
      let e : Exploration := ⟨found, false⟩
      search p n limit turns
        ⟨(e.addHalted (steps + 1) results).found, onward (steps + 1) results ++ waiting⟩

/-- Ends the search if it was cut off, and goes on with the waiting states otherwise. -/
def goOn (p : Program) (n limit turns : Nat) (waiting : List (Config × Nat)) (e : Exploration) :
    Option (List Trace × Bool) :=
  if e.capped then some (e.found.reverse, true) else search p n limit turns ⟨e.found, waiting⟩

/-- Once cut off, a search finds nothing more. -/
theorem goOn_fill_of_capped {turns : Nat} {waiting : List (Config × Nat)} {e : Exploration}
    {ts : List Trace} (h : e.capped = true) (hfull : limit ≤ e.found.length) :
    goOn p n limit turns waiting (e.fill limit ts) = some (e.found.reverse, true) := by
  unfold goOn Exploration.fill
  rw [h, Nat.sub_eq_zero_of_le hfull]
  rfl

theorem goOn_of_not_capped {turns : Nat} {waiting : List (Config × Nat)} {e : Exploration}
    (h : e.capped = false) :
    goOn p n limit turns waiting e = search p n limit turns ⟨e.found, waiting⟩ := by
  rw [goOn, h]
  rfl

/-- The first waiting state is searched to the end before those behind it, and its leaves are found. -/
def Searches (p : Program) (n limit m steps : Nat) (c : Config) : Prop :=
  ∀ (found : List Trace) (waiting : List (Config × Nat)), found.length ≤ limit →
    ∃ spent, ∀ turns, search p n limit (turns + spent) ⟨found, (c, steps) :: waiting⟩ =
      goOn p n limit turns waiting
        ((⟨found, false⟩ : Exploration).fill limit (traces steps (Config.leaves p m c)))

theorem search_onward {m steps : Nat} (hsearches : ∀ d, Searches p n limit m (steps + 1) d)
    (bs : List (List Choice × Exec Config)) {found : List Trace} (h : found.length ≤ limit)
    (waiting : List (Config × Nat)) : ∃ spent, ∀ turns, search p n limit (turns + spent)
      ⟨found, onward (steps + 1) (bs.map (·.2)) ++ waiting⟩ = goOn p n limit turns waiting
        ((⟨found, false⟩ : Exploration).fill limit
          (traces steps (bs.flatMap (Config.leavesBehind p m)))) := by
  induction bs generalizing found with
  | nil =>
    have hfill := Exploration.fill_nil (e := ⟨found, false⟩) h
    refine ⟨0, fun turns => ?_⟩
    show _ = goOn p n limit turns waiting ((⟨found, false⟩ : Exploration).fill limit [])
    rw [hfill]
    rfl
  | cons b bs ih =>
    obtain ⟨answers, r⟩ := b
    cases r with
    | error e => exact ih h
    | ok d =>
      -- the state of this branch is searched first, with the other branches among what waits
      obtain ⟨spent, hspent⟩ := hsearches d found (onward (steps + 1) (bs.map (·.2)) ++ waiting) h
      have hlength : ((⟨found, false⟩ : Exploration).fill limit
          (traces (steps + 1) (Config.leaves p m d))).found.length ≤ limit :=
        Exploration.length_found_fill h
      obtain ⟨spent', hspent'⟩ := ih hlength
      refine ⟨spent' + spent, fun turns => ?_⟩
      rw [← Nat.add_assoc, List.flatMap_cons, traces_append, traces_leavesBehind,
        ← Exploration.fill_append h]
      refine (hspent (turns + spent')).trans ?_
      cases hcapped : ((⟨found, false⟩ : Exploration).fill limit
          (traces (steps + 1) (Config.leaves p m d))).capped with
      | true =>
        rw [goOn_fill_of_capped hcapped (Exploration.le_length_of_capped rfl hcapped), goOn, if_pos hcapped]
      | false =>
        rw [goOn_of_not_capped hcapped, hspent' turns, Exploration.mk_found hcapped]

/-- Every waiting state is searched to the end. -/
theorem searches {m steps : Nat} (hsteps : steps + m = n) (c : Config) :
    Searches p n limit m steps c := by
  induction m generalizing steps c with
  | zero =>
    intro found waiting h
    refine ⟨1, fun turns => ?_⟩
    rcases Nat.lt_or_ge found.length limit with hlt | hfull
    · rw [search, if_neg (Nat.not_le.2 hlt), if_pos (show steps = n from hsteps), traces_leaves_zero,
        Exploration.fill_of_le hlt]
      rfl
    · rw [search, if_pos hfull, Exploration.fill_of_full hfull traces_leaves_ne_nil]
      rfl
  | succ m ih =>
    intro found waiting h
    rcases Nat.lt_or_ge found.length limit with hlt | hfull
    · -- the results that end are found, the others wait
      have hadd := addHalted_eq_fill (p := p) (c := c) (k := steps) (e := ⟨found, false⟩) hlt
      have hcapped := (congrArg Exploration.capped hadd).symm.trans Exploration.capped_addHalted
      have hlength : ((⟨found, false⟩ : Exploration).fill limit
          (traces steps ((c.step p).branches.filterMap Config.ended?))).found.length ≤ limit :=
        Exploration.length_found_fill h
      have hsearches : ∀ d, Searches p n limit m (steps + 1) d := fun d => ih (by omega) d
      obtain ⟨spent, hspent⟩ := search_onward hsearches (c.step p).branches hlength waiting
      refine ⟨spent + 1, fun turns => ?_⟩
      show search p n limit (turns + spent + 1) _ = _
      rw [search, if_neg (Nat.not_le.2 hlt), if_neg (by omega)]
      dsimp only
      rw [hadd, Config.successors, ← Ask.map_branches, hspent, Exploration.mk_found hcapped,
        Exploration.fill_append h, ← traces_append, ← Config.leaves_succ]
    · refine ⟨1, fun turns => ?_⟩
      rw [search, if_pos hfull, Exploration.fill_of_full hfull traces_leaves_ne_nil]
      rfl

/-- The loop ends with the result of the exploration. -/
theorem exists_search_eq (p : Program) (c : Config) (n limit : Nat) :
    ∃ turns, search p n limit turns ⟨[], [(c, 0)]⟩ = some (nstepAll p c n limit) := by
  obtain ⟨spent, hspent⟩ := searches (Nat.zero_add n) c [] [] (Nat.zero_le limit)
  refine ⟨1 + spent, (hspent 1).trans ?_⟩
  have hvisit : visit p limit n 0 ⟨[], false⟩ c = _ := visit_eq_fill (Nat.zero_le limit)
  rw [← hvisit]
  show goOn p n limit 1 [] (visit p limit n 0 ⟨[], false⟩ c) =
    some ((visit p limit n 0 ⟨[], false⟩ c).found.reverse, (visit p limit n 0 ⟨[], false⟩ c).capped)
  cases hcapped : (visit p limit n 0 ⟨[], false⟩ c).capped with
  | true => rw [goOn, if_pos hcapped]
  | false => rw [goOn_of_not_capped hcapped, search]

end WorkList

/-! ## Exactness -/

namespace Config

variable {p : Program} {c : Config} {n limit : Nat} {t : Trace} {script : List Choice}

/-- The lists of answers that runs with legal answers are given. -/
def answerSequences (p : Program) (n : Nat) (c : Config) : Set (List Choice) :=
  {script | ∃ (σ : Type) (o : Oracle σ) (s : σ), Legal p o n c s ∧
    (asked p o n c s).map (·.2) = script}

theorem mem_answerSequences_iff : script ∈ c.answerSequences p n ↔
    script ∈ (leaves p n c).map (·.1) := by
  rw [List.mem_map]
  constructor
  · rintro ⟨σ, o, s, hlegal, rfl⟩
    exact ⟨_, mem_leaves_iff.2 (plays_of_legal hlegal), rfl⟩
  · rintro ⟨⟨script, t⟩, hl, rfl⟩
    obtain ⟨-, hanswers, hlegal⟩ := (mem_leaves_iff.1 hl).nstep_scripted []
    exact ⟨_, _, _, hlegal, hanswers⟩

/-- There are as many lists of legal answers as leaves. -/
theorem encard_answerSequences : (c.answerSequences p n).encard = (leaves p n c).length := by
  have hset : c.answerSequences p n = ((leaves p n c).map (·.1)).toFinset := by
    ext script
    rw [mem_answerSequences_iff, Finset.mem_coe, List.mem_toFinset]
  rw [hset, Set.encard_coe_eq_coe_finsetCard, List.toFinset_card_of_nodup (nodup_leaves p n c),
    List.length_map]

end Config

/-- The exploration is exact. It is a loop that ends. Its traces, `limit` of them at most, are those of
different lists of legal answers, which are used up when they are played. It is cut off exactly if there
are more such lists than `limit`, and then it lists `limit` traces; otherwise it lists the trace of every
run that is answered legally. -/
theorem nstepAll_exact (p : Program) (c : Config) (n limit : Nat) :
    (∃ turns, WorkList.search p n limit turns ⟨[], [(c, 0)]⟩ = some (nstepAll p c n limit)) ∧
      (nstepAll p c n limit).1.length ≤ limit ∧
      (∃ scripts : List (List Choice), scripts.Nodup ∧
        (nstepAll p c n limit).1 = scripts.map (fun script => (nstep p .scripted n c script).1) ∧
        ∀ script ∈ scripts, c.Legal p .scripted n script ∧
          (c.asked p .scripted n script).map (·.2) = script) ∧
      ((nstepAll p c n limit).2 = false → ∀ (σ : Type) (o : Oracle σ) (s : σ), c.Legal p o n s →
        (nstep p o n c s).1 ∈ (nstepAll p c n limit).1) ∧
      ((nstepAll p c n limit).2 = true ↔ limit < (c.answerSequences p n).encard) ∧
      ((nstepAll p c n limit).2 = true → (nstepAll p c n limit).1.length = limit) := by
  refine ⟨WorkList.exists_search_eq p c n limit, ?_⟩
  have hscripted : ∀ l ∈ Config.leaves p n c, (nstep p .scripted n c l.1).1 = l.2 ∧
      c.Legal p .scripted n l.1 ∧ (c.asked p .scripted n l.1).map (·.2) = l.1 := by
    intro l hl
    obtain ⟨hrun, hanswers, hlegal⟩ := (Config.mem_leaves_iff.1 hl).nstep_scripted []
    rw [List.append_nil] at hrun hanswers hlegal
    exact ⟨congrArg Prod.fst hrun, hlegal, hanswers⟩
  rw [nstepAll_eq, Config.encard_answerSequences]
  dsimp only
  refine ⟨List.length_take_le _ _, ⟨((Config.leaves p n c).map (·.1)).take limit, ?_, ?_, ?_⟩, ?_, ?_, ?_⟩
  · exact (Config.nodup_leaves p n c).sublist (List.take_sublist _ _)
  · rw [← List.map_take, ← List.map_take, List.map_map]
    exact List.map_congr_left fun l hl => ((hscripted l (List.mem_of_mem_take hl)).1).symm
  · intro script hscript
    obtain ⟨l, hl, rfl⟩ := List.mem_map.1 (List.mem_of_mem_take hscript)
    exact (hscripted l hl).2
  · -- nothing was left over, so the whole tree is listed
    intro hcapped σ o s hlegal
    have hall : ((Config.leaves p n c).map (·.2)).length ≤ limit := by
      rw [List.length_map]
      exact Nat.not_lt.1 (of_decide_eq_false hcapped)
    rw [List.take_of_length_le hall]
    exact List.mem_map.2 ⟨_, Config.mem_leaves_iff.2 (Config.plays_of_legal hlegal), rfl⟩
  · rw [decide_eq_true_iff, Nat.cast_lt]
  · intro hcapped
    rw [List.length_take, List.length_map]
    exact Nat.min_eq_left (Nat.le_of_lt (of_decide_eq_true hcapped))

/-- The cell can be placed in more ways than one. With room for one trace the exploration is cut off, with
room for sixteen it lists the run that places the cell as low as it can. -/
theorem cell_nstepAll_exact :
    1 < ((cellStart 1).answerSequences cellProgram 5).encard ∧
      ((cellStart 1).answerSequences cellProgram 5).encard ≤ 16 ∧
      (nstep cellProgram .firstFit 5 (cellStart 1) ()).1 ∈
        (nstepAll cellProgram (cellStart 1) 5 16).1 := by
  have hone : (nstepAll cellProgram (cellStart 1) 5 1).2 = true := by decide +kernel
  have hsixteen : (nstepAll cellProgram (cellStart 1) 5 16).2 = false := by decide +kernel
  obtain ⟨-, -, -, -, hcapped, -⟩ := nstepAll_exact cellProgram (cellStart 1) 5 1
  obtain ⟨-, -, -, hall, hcapped', -⟩ := nstepAll_exact cellProgram (cellStart 1) 5 16
  refine ⟨hcapped.1 hone, not_lt.1 fun hlt => ?_, ?_⟩
  · rw [hcapped'.2 hlt] at hsixteen
    cases hsixteen
  · exact hall hsixteen Unit .firstFit () (Config.legal_of_admitted fun point _ => point.admits_firstFit)

end PointerSemantics
