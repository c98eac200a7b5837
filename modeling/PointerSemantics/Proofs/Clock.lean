import PointerSemantics.Proofs.Swap.Validation

/-!
# Times cannot be observed

States that are equal but for the clock and the times in blocks ask the same questions, end alike and go
on to states that are equal in the same sense (`Config.Alike`), so their runs have equivalent traces
(`alike_resolve_step_and_equivalent_nstep`).

The comparison of memories looks at the blocks in the order of their numbers and not at the numbers they
stand under. The invariant of memory closes this gap: it makes the number of a block the one it stands
under, and then the compared memories are equal once times are erased.
-/

namespace PointerSemantics

/-! ## From comparison to erasure -/

theorem map_eq_of_all_zip {α β : Type} {f : α → β} {r : α → α → Bool} {as bs : List α}
    (hlength : as.length = bs.length) (hall : (as.zip bs).all (fun x => r x.1 x.2) = true)
    (h : ∀ a ∈ as, ∀ b ∈ bs, r a b = true → f a = f b) : as.map f = bs.map f := by
  induction as generalizing bs with
  | nil =>
    obtain rfl := List.length_eq_zero_iff.1 hlength.symm
    rfl
  | cons a as ih =>
    cases bs with
    | nil => simp at hlength
    | cons b bs =>
      rw [List.zip_cons_cons, List.all_cons, Bool.and_eq_true] at hall
      have hrest := ih (Nat.succ.inj hlength) hall.2 fun x hx y hy =>
        h x (List.mem_cons_of_mem _ hx) y (List.mem_cons_of_mem _ hy)
      rw [List.map_cons, List.map_cons, h a List.mem_cons_self b List.mem_cons_self hall.1, hrest]

theorem Block.erase_of_eqModuloClock {a b : Block} (h : a.eqModuloClock b = true) :
    a.erase .times = b.erase .times := by
  simp only [eqModuloClock, Bool.and_eq_true, beq_iff_eq] at h
  obtain ⟨⟨⟨⟨⟨⟨⟨hid, hkind⟩, hbase⟩, hsize⟩, halive⟩, halign⟩, hbytes⟩, hcandidates⟩ := h
  have hdied : a.died.map (fun _ => 0) = b.died.map fun _ => 0 := by
    unfold isAlive at halive
    cases ha : a.died <;> cases hb : b.died <;> simp [ha, hb] at halive ⊢
  simp only [erase, Erasure.times, hid, hkind, hbase, hsize, halign, hbytes, hcandidates, hdied]

theorem Memory.Wf.erase_of_eqModuloClock {m n : Memory} (hm : m.Wf) (hn : n.Wf)
    (h : m.eqModuloClock n = true) : m.erase .times = n.erase .times := by
  simp only [eqModuloClock, Bool.and_eq_true, beq_iff_eq] at h
  obtain ⟨⟨⟨hconfig, hfresh⟩, hsize⟩, hall⟩ := h
  have hall' : (m.blocks.entries.zip n.blocks.entries).all
      (fun x => x.1.2.eqModuloClock x.2.2) = true := by
    rwa [Table.values, Table.values, List.zip_map, List.all_map] at hall
  have hentries : (m.blocks.map (Block.erase .times)).entries =
      (n.blocks.map (Block.erase .times)).entries := by
    refine map_eq_of_all_zip (r := fun e e' => e.2.eqModuloClock e'.2) hsize hall' ?_
    intro e he e' he' hee'
    -- both blocks stand under their own number
    have herase := Block.erase_of_eqModuloClock hee'
    obtain ⟨hid, -⟩ := Block.mk.inj herase
    have hkey := (hm.block _ _ (mem_entries_iff.1 he)).id_eq
    have hkey' := (hn.block _ _ (mem_entries_iff.1 he')).id_eq
    exact Prod.ext (hkey.symm.trans (hid.trans hkey')) herase
  have hblocks : m.blocks.map (Block.erase .times) = n.blocks.map (Block.erase .times) :=
    Table.ext_find? fun k => by rw [Table.find?, Table.find?, hentries]
  unfold erase
  rw [hblocks, hconfig, hfresh]
  rfl

/-! ## States -/

/-- The states have sound memories, stand at the same places, and are equal but for times. -/
structure Config.Alike (c d : Config) : Prop where
  left : c.memory.checkInvariants = .ok ()
  right : d.memory.checkInvariants = .ok ()
  eqModuloPc : c.eqModuloPc d = true
  pcs : c.stack.map (·.pc) = d.stack.map (·.pc)

/-- The same end, or states that are alike. -/
inductive Exec.Alike : Exec Config → Exec Config → Prop
  | halted (e : Halt) : Exec.Alike (.error e) (.error e)
  | running {c d : Config} (h : c.Alike d) : Exec.Alike (.ok c) (.ok d)

namespace Config

variable {p : Program} {c d : Config}

theorem stack_eq_of_eqModuloPc {fs gs : List Frame} (hlength : fs.length = gs.length)
    (hall : (fs.zip gs).all (fun x => frameEqModuloPc x.1 x.2) = true)
    (hpcs : fs.map (·.pc) = gs.map (·.pc)) : fs = gs := by
  induction fs generalizing gs with
  | nil => exact (List.length_eq_zero_iff.1 hlength.symm).symm
  | cons f fs ih =>
    cases gs with
    | nil => simp at hlength
    | cons g gs =>
      rw [List.zip_cons_cons, List.all_cons, Bool.and_eq_true] at hall
      obtain ⟨hpc, hpcs⟩ := List.cons.inj hpcs
      have hfg : f = g := by
        obtain ⟨⟨⟨hid, hregs⟩, hdest⟩, hblocks⟩ := by
          simpa only [frameEqModuloPc, Bool.and_eq_true, beq_iff_eq] using hall.1
        cases f; cases g
        simp_all
      rw [hfg, ih (Nat.succ.inj hlength) hall.2 hpcs]

/-- States are alike exactly if their memories are sound and they are equal once times are erased. -/
theorem alike_iff : c.Alike d ↔
    c.memory.Wf ∧ d.memory.Wf ∧ c.erase .times = d.erase .times := by
  constructor
  · intro h
    have hc := Memory.checkInvariants_eq_ok_iff.1 h.left
    have hd := Memory.checkInvariants_eq_ok_iff.1 h.right
    obtain ⟨⟨⟨⟨hmemory, htable⟩, hnext⟩, hlength⟩, hframes⟩ := by
      simpa only [Config.eqModuloPc, Bool.and_eq_true, beq_iff_eq] using h.eqModuloPc
    have hstack := stack_eq_of_eqModuloPc hlength hframes h.pcs
    refine ⟨hc, hd, ?_⟩
    simp only [erase, hc.erase_of_eqModuloClock hd hmemory, hstack, htable, hnext]
  · rintro ⟨hc, hd, h⟩
    obtain ⟨-, hstack, -, -⟩ := Config.mk.inj h
    exact ⟨Memory.checkInvariants_eq_ok_iff.2 hc, Memory.checkInvariants_eq_ok_iff.2 hd,
      eqModuloPc_of_erase h, congrArg (List.map (·.pc)) hstack⟩

/-! ## Steps -/

theorem Alike.map_step (h : c.Alike d) (p : Program) :
    (c.step p).map (Except.map (erase .times)) = (d.step p).map (Except.map (erase .times)) := by
  obtain ⟨-, -, heq⟩ := alike_iff.1 h
  rw [← step_erase (hides_of_keepsBases Erasure.keepsBases_times), heq,
    step_erase (hides_of_keepsBases Erasure.keepsBases_times)]

theorem Alike.point?_step (h : c.Alike d) (p : Program) : (c.step p).point? = (d.step p).point? := by
  rw [← Ask.point?_map, h.map_step p, Ask.point?_map]

/-- Whatever the question is answered, both states end in the same way or go on to states that are alike. -/
theorem Alike.resolve_step {σ : Type} (h : c.Alike d) (p : Program) (o : Oracle σ) (s : σ) :
    Exec.Alike (o.resolve s (c.step p)).1 (o.resolve s (d.step p)).1 ∧
      (o.resolve s (c.step p)).2 = (o.resolve s (d.step p)).2 := by
  have hresolve := congrArg (o.resolve s) (h.map_step p)
  rw [o.resolve_map, o.resolve_map] at hresolve
  obtain ⟨hresult, hstate⟩ := Prod.mk.inj hresolve
  refine ⟨?_, hstate⟩
  have hc := Ask.yields_resolve o s (c.step p)
  have hd := Ask.yields_resolve o s (d.step p)
  cases hx : (o.resolve s (c.step p)).1 with
  | error e =>
    rw [hx] at hresult
    obtain hy := Exec.map_eq_error_iff.1 hresult.symm
    rw [hy]
    exact .halted e
  | ok c' =>
    rw [hx] at hresult hc
    obtain ⟨d', hy, heq⟩ := Exec.map_eq_ok_iff.1 hresult.symm
    rw [hy] at hd ⊢
    obtain ⟨hcwf, hdwf, -⟩ := alike_iff.1 h
    exact .running (alike_iff.2 ⟨(steps_of_yields hc).wf hcwf, (steps_of_yields hd).wf hdwf, heq.symm⟩)

end Config

/-! ## Runs -/

section Run

variable {σ : Type} {p : Program} {o : Oracle σ} {c d : Config}

/-- Runs from states that are alike take the same steps, ask the same questions and have equivalent traces. -/
theorem Config.Alike.nstep (h : c.Alike d) (n : Nat) (s : σ) :
    (nstep p o n c s).2 = (nstep p o n d s).2 ∧
      (nstep p o n c s).1.steps = (nstep p o n d s).1.steps ∧
      (nstep p o n c s).1.equivalent (nstep p o n d s).1 = true := by
  induction n generalizing c d s with
  | zero =>
    refine ⟨rfl, rfl, ?_⟩
    simpa [Trace.equivalent, Outcome.goesWrong, Outcome.agrees] using h.eqModuloPc
  | succ n ih =>
    obtain ⟨hresult, hstate⟩ := h.resolve_step p o s
    unfold PointerSemantics.nstep
    cases hx : o.resolve s (c.step p) with
    | mk x s' =>
      cases hy : o.resolve s (d.step p) with
      | mk y s'' =>
        rw [hx, hy] at hresult hstate
        obtain rfl : s' = s'' := hstate
        cases hresult with
        | halted e =>
          refine ⟨rfl, rfl, ?_⟩
          simp [Trace.equivalent, Outcome.agrees, e.agrees_refl]
        | running h' =>
          obtain ⟨hs, hsteps, hequiv⟩ := ih h' s'
          exact ⟨hs, congrArg (· + 1) hsteps, hequiv⟩

/-- Equality but for times, at equal places, is a bisimulation: states that are alike ask an oracle the
same question, and end in the same way or go on to states that are alike. So their runs take the same
number of steps and have equivalent traces. -/
theorem alike_resolve_step_and_equivalent_nstep (p : Program) (o : Oracle σ) (h : c.Alike d) :
    (c.step p).point? = (d.step p).point? ∧
      (∀ s, Exec.Alike (o.resolve s (c.step p)).1 (o.resolve s (d.step p)).1 ∧
        (o.resolve s (c.step p)).2 = (o.resolve s (d.step p)).2) ∧
      ∀ n s, (nstep p o n c s).2 = (nstep p o n d s).2 ∧
        (nstep p o n c s).1.steps = (nstep p o n d s).1.steps ∧
        (nstep p o n c s).1.equivalent (nstep p o n d s).1 = true :=
  ⟨h.point?_step p, h.resolve_step p o, h.nstep⟩

end Run

/-- The small function behind its allocation, which was made at time `t`. -/
def cellAged (t : Tick) : Config where
  memory :=
    { blocks := Table.empty.insert 0
        { id := 0, kind := .stack, base := 8, size := 1, born := t, died := none, align := 8,
          bytes := [.poison], candidates := .ofList [8, 16] }
      clock := t + 1
      freshId := 1
      config := cellConfig }
  stack := [⟨0, ⟨0, 1⟩, .ofList [(0, .num 8 5), (1, .ptr (.logical 0 0))], none, [0]⟩]
  callTable := Table.empty.insert 0 1
  nextCallId := 1

/-- The rest of the function does not tell at what time its cell was made. -/
theorem cellAged_equivalent_nstep : cellAged 0 ≠ cellAged 6 ∧
    ∀ n, (nstep cellProgram .firstFit n (cellAged 0) ()).1.equivalent
      (nstep cellProgram .firstFit n (cellAged 6) ()).1 = true := by
  have halike : (cellAged 0).Alike (cellAged 6) := ⟨by decide, by decide, by decide, by decide⟩
  have hbisim := alike_resolve_step_and_equivalent_nstep cellProgram .firstFit halike
  exact ⟨by decide, fun n => (hbisim.2.2 n ()).2.2⟩

end PointerSemantics
