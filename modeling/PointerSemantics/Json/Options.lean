import PointerSemantics.Json.Form
import PointerSemantics.Json.Reader
import PointerSemantics.Options

/-!
# Options as JSON

Every member of an options document may be absent and then takes its standard value; the array form
may stop early. In a document given as text a member that the options have may not be written twice.
-/

namespace PointerSemantics

open Form (word64)

namespace ExecOptions

/-- The members of options, in order. -/
def memberNames : List String :=
  ["memsz", "sysalign", "max_candidates", "step_budget", "explore_limit"]

def form : Form ExecOptions where
  write o := .obj [("memsz", .nat o.memsz), ("sysalign", .nat o.sysalign),
    ("max_candidates", .nat o.maxCandidates), ("step_budget", .nat o.stepBudget),
    ("explore_limit", .nat o.exploreLimit)]
  read j := do
    let fs ←
      match j with
      | .obj fields => some fields
      | .arr items =>
        if items.length ≤ memberNames.length then some (memberNames.zip items) else none
      | _ => none
    return ⟨← word64.needOr standard.memsz fs "memsz",
      ← word64.needOr standard.sysalign fs "sysalign",
      ← word64.needOr standard.maxCandidates fs "max_candidates",
      ← word64.needOr standard.stepBudget fs "step_budget",
      ← word64.needOr standard.exploreLimit fs "explore_limit"⟩

/-- Why a text gives no options. -/
inductive TextError where
  | unreadable
  | invalid (e : OptionsError)
deriving DecidableEq

/-- No member that the options have is written twice. -/
def noneRepeated : Json → Bool
  | .obj fields => memberNames.all fun name => fields.countP (·.1 == name) ≤ 1
  | _ => true

/-- The options of a JSON text, if they describe a usable machine. -/
def ofText (s : String) : Except TextError ExecOptions :=
  match (Json.parse? s).filter noneRepeated >>= form.read with
  | none => .error .unreadable
  | some o =>
    match o.validate with
    | .error e => .error (.invalid e)
    | .ok () => .ok o

end ExecOptions

end PointerSemantics
