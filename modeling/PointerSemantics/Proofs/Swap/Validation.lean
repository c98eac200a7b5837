import PointerSemantics.Proofs.Swap.Pairs
import PointerSemantics.Swap.Validation

/-!
# What the table of kinds promises of the exploration of both orders

States that are equal up to times agree in the sense of traces (`Outcome.agrees_of_erase`). So the report
on a pair that passes `checkSwap` says that the exchanged order refines the order as it is, whenever the
exploration was complete and neither instruction is ill-formed when it is executed first
(`refines_of_validateSwap`).
-/

namespace PointerSemantics

/-! ## Agreement up to times -/

theorem all_zip_of_map_eq {α β : Type} {f : α → β} {r : α → α → Bool}
    (h : ∀ a b, f a = f b → r a b = true) {as bs : List α} (hmap : as.map f = bs.map f) :
    (as.zip bs).all (fun x => r x.1 x.2) = true := by
  induction as generalizing bs with
  | nil => rfl
  | cons a as ih =>
    cases bs with
    | nil => rfl
    | cons b bs =>
      obtain ⟨hab, hrest⟩ := List.cons.inj hmap
      rw [List.zip_cons_cons, List.all_cons, h a b hab, ih hrest]
      rfl

theorem Block.eqModuloClock_of_erase {a b : Block} (h : a.erase .times = b.erase .times) :
    a.eqModuloClock b = true := by
  have halive : a.isAlive = b.isAlive := by
    rw [← isAlive_erase (e := .times) (b := a), h, isAlive_erase]
  obtain ⟨hid, hkind, hbase, hsize, -, -, halign, hbytes, hcandidates⟩ := Block.mk.inj h
  have hbase' : a.base = b.base := hbase
  simp [eqModuloClock, hid, hkind, hbase', hsize, halive, halign, hbytes, hcandidates]

theorem Memory.eqModuloClock_of_erase {m n : Memory} (h : m.erase .times = n.erase .times) :
    m.eqModuloClock n = true := by
  obtain ⟨hblocks, -, hfresh, hconfig⟩ := Memory.mk.inj h
  have hsize : m.blocks.size = n.blocks.size := by
    rw [← Table.size_map (Block.erase .times) m.blocks, hblocks, Table.size_map]
  have hvalues : m.blocks.values.map (Block.erase .times) = n.blocks.values.map (Block.erase .times) := by
    rw [← Table.values_map, hblocks, Table.values_map]
  have hall := all_zip_of_map_eq (fun _ _ => Block.eqModuloClock_of_erase) hvalues
  simp only [eqModuloClock, hconfig, hfresh, hsize, beq_self_eq_true, Bool.true_and]
  exact hall

theorem Config.eqModuloPc_of_erase {c d : Config} (h : c.erase .times = d.erase .times) :
    c.eqModuloPc d = true := by
  obtain ⟨hmemory, hstack, htable, hnext⟩ := Config.mk.inj h
  have hframes : (d.stack.zip d.stack).all (fun x => frameEqModuloPc x.1 x.2) = true := by
    refine all_zip_of_map_eq (f := id) (fun f g hfg => ?_) rfl
    obtain rfl : f = g := hfg
    simp [frameEqModuloPc]
  have hstack' : c.stack = d.stack := hstack
  simp only [eqModuloPc, Memory.eqModuloClock_of_erase hmemory, hstack', beq_self_eq_true,
    Bool.true_and]
  have htable' : c.callTable = d.callTable := htable
  have hnext' : c.nextCallId = d.nextCallId := hnext
  simp only [htable', hnext', beq_self_eq_true, Bool.true_and]
  exact hframes

theorem Outcome.agrees_of_erase {r s : Exec Config}
    (h : Except.map (Config.erase .times) s = Except.map (Config.erase .times) r) :
    (Outcome.ofStep r).agrees (.ofStep s) = true := by
  cases r with
  | error e =>
    obtain rfl := Exec.map_eq_error_iff.1 h
    exact e.agrees_refl
  | ok d =>
    obtain ⟨c, rfl, hc⟩ := Exec.map_eq_ok_iff.1 h
    exact Config.eqModuloPc_of_erase hc.symm

/-- A trace without events refines the traces among which one has the outcome, or goes wrong. -/
theorem Trace.refines_of_mem {t s : Trace} {sources : List Trace} (hs : s ∈ sources)
    (ht : t.events = []) (hse : s.events = [])
    (h : s.outcome.goesWrong = true ∨ t.outcome.agrees s.outcome = true) :
    t.refines sources = true := by
  refine List.any_eq_true.2 ⟨s, hs, ?_⟩
  rcases h with h | h
  · simp [h, hse]
  · simp [equivalent, h, ht, hse]

/-! ## Reports -/

namespace Config

variable {p : Program} {c : Config} {limit : Nat}

/-- At two neighbours the report compares two steps of the program with two steps of the exchanged one. -/
theorem validateSwap_eq {f : Frame} {rest : List Frame} {id : FunctionId} {fn fn' : FunctionDef}
    {i j : Instruction} (hstack : c.stack = f :: rest) (hid : c.callTable.find? f.callId = some id)
    (hfn : p id = some fn) (hi : fn.instructionAt? f.pc = some i)
    (hj : fn.instructionAt? f.pc.next = some j) (hswap : fn.swapAt? f.pc = some fn') (limit : Nat) :
    c.validateSwap p limit = .ok ⟨i.checkSwap j, (nstepAll p c 2 limit).1,
      (nstepAll (p.overlay id fn') c 2 limit).1,
      (nstepAll p c 2 limit).2 || (nstepAll (p.overlay id fn') c 2 limit).2⟩ := by
  unfold validateSwap
  simp only [hstack, hid, hfn, hi, hj, hswap]

/-- A report is about two steps of the program and of another one. -/
theorem exists_of_validateSwap {report : SwapReport} (h : c.validateSwap p limit = .ok report) :
    ∃ p', report.source = (nstepAll p c 2 limit).1 ∧ report.target = (nstepAll p' c 2 limit).1 ∧
      report.capped = ((nstepAll p c 2 limit).2 || (nstepAll p' c 2 limit).2) := by
  unfold validateSwap at h
  split at h
  · cases h
  · split at h
    · cases h
    · split at h
      · cases h
      · split at h
        · obtain rfl := Except.ok.inj h
          exact ⟨_, rfl, rfl, rfl⟩
        · cases h

end Config

/-- The static check of a pair is sound for the exploration of both orders. -/
theorem refines_of_validateSwap {p : Program} {c : Config} {f : Frame} {rest : List Frame}
    {id : FunctionId} {fn fn' : FunctionDef} {i j : Instruction} {limit : Nat} {report : SwapReport}
    (hcheck : c.check p = .ok ()) (hconfig : c.memory.config.validate = .ok ())
    (hstack : c.stack = f :: rest) (hid : c.callTable.find? f.callId = some id)
    (hfn : p id = some fn) (hi : fn.instructionAt? f.pc = some i)
    (hj : fn.instructionAt? f.pc.next = some j) (hvalid : i.checkSwap j = .valid)
    (hswap : fn.swapAt? f.pc = some fn')
    (hsource : ∀ e, .error e ∈ c.successors p → e.isIllFormed = false)
    (htarget : ∀ e, .error e ∈ c.successors (p.overlay id fn') → e.isIllFormed = false)
    (h : c.validateSwap p limit = .ok report) (hcapped : report.capped = false) :
    report.refines = true := by
  have hwf := Config.check_eq_ok_iff.1 hcheck
  have hm : c.memory.Usable := ⟨hwf.memory, hconfig⟩
  have hregs : ∀ r v, f.registers.find? r = some v → c.memory.PointsWell v := by
    intro r v hv
    have hf := hwf.frames f (hstack ▸ List.mem_cons_self)
    exact (Memory.valueWf_iff.1 (hf.registers r v hv)).1
  have hij := Instruction.mayExchange_of_checkSwap hvalid
  obtain ⟨hicall, hjcall⟩ := Category.ne_call_of_commutes hij.commutes
  obtain ⟨hpair, hpair'⟩ := Config.atPair_overlay hfn hswap hi hj hstack hid rfl
  obtain ⟨fn₁, hfirst⟩ := hpair.first
  obtain ⟨fn₂, hfirst'⟩ := hpair'.first
  have hover := hij.overtakes hm hregs
    (fun e he => hsource e ((Config.mem_successors_iff hstack hfirst hicall).2 ⟨_, he, rfl⟩))
    (fun e he => htarget e ((Config.mem_successors_iff hstack hfirst' hjcall).2 ⟨_, he, rfl⟩))
  -- the report lists the behaviours of two steps in both programs
  have hreport : report = ⟨i.checkSwap j, (nstepAll p c 2 limit).1,
      (nstepAll (p.overlay id fn') c 2 limit).1,
      (nstepAll p c 2 limit).2 || (nstepAll (p.overlay id fn') c 2 limit).2⟩ := by
    unfold Config.validateSwap at h
    simp only [hstack, hid, hfn, hi, hj, hswap] at h
    exact (Except.ok.inj h).symm
  subst hreport
  obtain ⟨hcapped, hcapped'⟩ := Bool.or_eq_false_iff.1 hcapped
  refine List.all_eq_true.2 fun t ht => ?_
  obtain ⟨hevents, r, hr, hout⟩ := ((mem_nstepAll_iff hcapped').1 ht).twoSteps
  have hmem : ∀ {s}, c.Behaves p 2 s → s ∈ (nstepAll p c 2 limit).1 := (mem_nstepAll_iff hcapped).2
  rcases hpair.exchange hpair' hij hr fun r' hr' _ => hover r' hr' with ⟨ub, hub⟩ | ⟨r', hr', heq⟩
  · obtain ⟨s, hs, hsevents, hsout⟩ := hub.exists_behaves
    refine Trace.refines_of_mem (hmem hs) hevents hsevents (.inl ?_)
    rw [hsout]
    rfl
  · obtain ⟨s, hs, hsevents, hsout⟩ := hr'.exists_behaves
    refine Trace.refines_of_mem (hmem hs) hevents hsevents (.inr ?_)
    rw [hout, hsout]
    exact Outcome.agrees_of_erase heq

theorem isIllFormed_of_all {p : Program} {c : Config}
    (h : ((c.successors p).all fun r => match r with
      | .error e => !e.isIllFormed
      | .ok _ => true) = true) : ∀ e, .error e ∈ c.successors p → e.isIllFormed = false := by
  intro e he
  simpa using List.all_eq_true.1 h _ he

/-- The addition of the small function ahead of its allocation. -/
theorem cell_refines : ∃ report, (cellStart 1).validateSwap cellProgram 16 = .ok report ∧
    report.capped = false ∧ report.refines = true := by
  have hcheck : (cellStart 1).check cellProgram = .ok () := by decide +kernel
  have hconfig : (cellStart 1).memory.config.validate = .ok () := by decide
  have hsource := isIllFormed_of_all (p := cellProgram) (c := cellStart 1) (by decide +kernel)
  have htarget := isIllFormed_of_all (p := cellProgram.overlay 1 swappedCell) (c := cellStart 1)
    (by decide +kernel)
  cases h : (cellStart 1).validateSwap cellProgram 16 with
  | error e =>
    have hok : ((cellStart 1).validateSwap cellProgram 16).isOk = true := by decide +kernel
    rw [h] at hok
    simp [Except.isOk, Except.toBool] at hok
  | ok report =>
    have hcapped : ((cellStart 1).validateSwap cellProgram 16).toOption.map (·.capped) =
        some false := by decide +kernel
    rw [h] at hcapped
    have hcapped' : report.capped = false := Option.some.inj hcapped
    exact ⟨report, rfl, hcapped', refines_of_validateSwap hcheck hconfig rfl rfl rfl rfl rfl
      (by decide) rfl hsource htarget h hcapped'⟩

end PointerSemantics
