import PointerSemantics.Function
import PointerSemantics.Table

/-!
# Programs

A program answers what a function number stands for. A module is the finite table behind most
programs; an overlay shadows one function of a program and leaves the rest as it was.
-/

namespace PointerSemantics

/-- What each function number stands for. -/
abbrev Program := FunctionId → Option FunctionDef

/-- The program with function `id` replaced. -/
def Program.overlay (p : Program) (id : FunctionId) (f : FunctionDef) : Program :=
  fun i => if i = id then some f else p i

structure Module where
  functions : Table FunctionDef
deriving DecidableEq

namespace Module

def empty : Module := ⟨.empty⟩

def lookup (m : Module) : Program := m.functions.find?

/-- The number the next added function gets: one more than the largest in use. -/
def nextId (m : Module) : FunctionId :=
  match m.functions.keys.getLast? with
  | some last => last + 1
  | none => 0

def add (m : Module) (f : FunctionDef) : FunctionId × Module :=
  (m.nextId, ⟨m.functions.insert m.nextId f⟩)

/-- The module of a list of functions, numbered from zero. -/
def ofList (fs : List FunctionDef) : Module := fs.foldl (fun m f => (m.add f).2) empty

end Module

end PointerSemantics
