import PointerSemantics.Word

/-!
# Options

The parameters of an address space and the budgets for running and exploring programs.
-/

namespace PointerSemantics

/-- The largest address space; pointers have 32 bits. -/
def maxMemsz : Nat := Nat.pow 2 32

/-- Parameters of an address space. -/
structure MemConfig where
  /-- Size of the address space; address zero is null -/
  memsz : Nat
  /-- Alignment of every block -/
  sysalign : Nat
  /-- Twin addresses proposed for a block, at most -/
  maxCandidates : Nat
deriving DecidableEq, Inhabited

structure ExecOptions where
  memsz : Nat
  sysalign : Nat
  maxCandidates : Nat
  /-- Steps before a run is cut off -/
  stepBudget : Nat
  /-- Traces an exploration may list -/
  exploreLimit : Nat
deriving DecidableEq, Inhabited

/-- Why options describe no usable machine. -/
inductive OptionsError where
  | memszOutOfRange (memsz : Nat)
  | sysalignNotPowerOfTwo (sysalign : Nat)
  | sysalignNotBelowMemsz
  | noCandidates
  | noTraces
deriving DecidableEq

namespace OptionsError

def reason : OptionsError → String
  | memszOutOfRange memsz => s!"memsz must be in 2..={maxMemsz}, got {memsz}"
  | sysalignNotPowerOfTwo sysalign => s!"sysalign must be a power of two, got {sysalign}"
  | sysalignNotBelowMemsz => "sysalign must be below memsz"
  | noCandidates => "max_candidates must be at least 1"
  | noTraces => "explore_limit must be at least 1"

def message (e : OptionsError) : String := "Invalid options: " ++ e.reason

end OptionsError

namespace MemConfig

def standard : MemConfig := ⟨65536, 8, 4⟩

/-- The parameters describe a usable address space. -/
def validate (c : MemConfig) : Except OptionsError Unit :=
  if c.memsz < 2 ∨ maxMemsz < c.memsz then .error (.memszOutOfRange c.memsz)
  else if !Word.isPowerOfTwo c.sysalign then .error (.sysalignNotPowerOfTwo c.sysalign)
  else if c.memsz ≤ c.sysalign then .error .sysalignNotBelowMemsz
  else if c.maxCandidates = 0 then .error .noCandidates
  else .ok ()

end MemConfig

namespace ExecOptions

def standard : ExecOptions := ⟨65536, 8, 4, 10000, 4096⟩

def memConfig (o : ExecOptions) : MemConfig := ⟨o.memsz, o.sysalign, o.maxCandidates⟩

def validate (o : ExecOptions) : Except OptionsError Unit := do
  o.memConfig.validate
  if o.exploreLimit = 0 then .error .noTraces else .ok ()

end ExecOptions

end PointerSemantics
