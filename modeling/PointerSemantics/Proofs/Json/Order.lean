import PointerSemantics.Json
import Mathlib.Data.List.Sort

/-!
# The order of members

The members of an object come in no order: two JSON values that differ in it only are one document.
`Json.ordered` puts the members of every object in the order of their names, and `Json.Same` compares
what that leaves. Objects with the same members, each name given once, are the same in this sense
(`same_obj_of_perm`).

Of several members with one name the first stays the first, so looking a member up gives the same
document before and after (`member?_sortFields`, `member?_orderedFields`).
-/

namespace PointerSemantics

namespace Json

/-- Order by name. -/
def NameLE (f g : String × Json) : Prop := f.1 ≤ g.1

instance : DecidableRel NameLE := fun f g => inferInstanceAs (Decidable (f.1 ≤ g.1))

theorem ne_of_not_nameLE {f g : String × Json} (h : ¬NameLE f g) : f.1 ≠ g.1 := by
  unfold NameLE at h
  intro heq
  exact h (heq ▸ String.le_refl _)

/-- The members in the order of their names. -/
def sortFields (fs : List (String × Json)) : List (String × Json) := fs.insertionSort NameLE

mutual

/-- The value with the members of every object in the order of their names. -/
def ordered : Json → Json
  | arr items => arr (orderedItems items)
  | obj fields => obj (sortFields (orderedFields fields))
  | null => null
  | bool b => bool b
  | int i => int i
  | str s => str s
  | unreadable => unreadable

def orderedItems : List Json → List Json
  | [] => []
  | j :: rest => j.ordered :: orderedItems rest

def orderedFields : List (String × Json) → List (String × Json)
  | [] => []
  | (n, j) :: rest => (n, j.ordered) :: orderedFields rest

end

/-- Equal but for the order of members in objects. -/
def Same (j k : Json) : Prop := j.ordered = k.ordered

theorem orderedItems_eq_map (items : List Json) : orderedItems items = items.map ordered := by
  induction items with
  | nil => rfl
  | cons j rest ih => rw [orderedItems, ih, List.map_cons]

theorem orderedFields_eq_map (fs : List (String × Json)) :
    orderedFields fs = fs.map fun f => (f.1, f.2.ordered) := by
  induction fs with
  | nil => rfl
  | cons f rest ih => rw [orderedFields, ih, List.map_cons]

theorem length_sortFields_orderedFields (fs : List (String × Json)) :
    (sortFields (orderedFields fs)).length = fs.length := by
  rw [sortFields, List.length_insertionSort, orderedFields_eq_map, List.length_map]

/-- An object with two members or more still has as many. -/
theorem exists_ordered_obj (f g : String × Json) (rest : List (String × Json)) :
    ∃ h i hs, (obj (f :: g :: rest)).ordered = obj (h :: i :: hs) := by
  have hlen : (sortFields (orderedFields (f :: g :: rest))).length = rest.length + 2 :=
    length_sortFields_orderedFields _
  rw [ordered]
  match sortFields (orderedFields (f :: g :: rest)), hlen with
  | h :: i :: hs, _ => exact ⟨h, i, hs, rfl⟩

/-! ## The same members -/

/-- Members with different names may be put in one after the other or the other way around. -/
theorem orderedInsert_comm {f g : String × Json} (h : f.1 ≠ g.1) (fs : List (String × Json)) :
    (fs.orderedInsert NameLE g).orderedInsert NameLE f =
      (fs.orderedInsert NameLE f).orderedInsert NameLE g := by
  have hanti : f.1 ≤ g.1 → ¬g.1 ≤ f.1 := fun hfg hgf => h (String.le_antisymm hfg hgf)
  have htotal : f.1 ≤ g.1 ∨ g.1 ≤ f.1 := String.le_total f.1 g.1
  induction fs with
  | nil => grind [NameLE]
  | cons d rest ih =>
    have hfgd : f.1 ≤ g.1 → g.1 ≤ d.1 → f.1 ≤ d.1 := String.le_trans
    have hgfd : g.1 ≤ f.1 → f.1 ≤ d.1 → g.1 ≤ d.1 := String.le_trans
    grind [NameLE]

theorem sortFields_eq_of_perm {fs gs : List (String × Json)} (h : fs.Perm gs)
    (hnames : (fs.map (·.1)).Nodup) : sortFields fs = sortFields gs := by
  refine h.foldr_eq' (fun f hf g hg hs => ?_) []
  by_cases hfg : f.1 = g.1
  · rw [List.inj_on_of_nodup_map hnames hf hg hfg]
  · exact orderedInsert_comm (Ne.symm hfg) hs

theorem same_obj_of_perm {fs gs : List (String × Json)} (h : fs.Perm gs)
    (hnames : (fs.map (·.1)).Nodup) : Same (obj fs) (obj gs) := by
  have hperm : (orderedFields fs).Perm (orderedFields gs) := by
    rw [orderedFields_eq_map, orderedFields_eq_map]
    exact h.map _
  have hfields : ((orderedFields fs).map (·.1)).Nodup := by
    rwa [orderedFields_eq_map, List.map_map]
  unfold Same
  rw [ordered, ordered, sortFields_eq_of_perm hperm hfields]

/-! ## Looking members up -/

theorem member?_orderedInsert (name : String) (f : String × Json) (fs : List (String × Json)) :
    member? name (fs.orderedInsert NameLE f) = member? name (f :: fs) := by
  induction fs with
  | nil => rfl
  | cons g rest ih =>
    rw [List.orderedInsert_cons]
    split
    · rfl
    · next hfg =>
      -- the names differ, so at most one of the two members is the one looked for
      have hne : f.1 ≠ g.1 := ne_of_not_nameLE hfg
      simp only [member?] at ih ⊢
      rw [ih]
      split <;> split <;> simp_all

theorem member?_sortFields (name : String) (fs : List (String × Json)) :
    member? name (sortFields fs) = member? name fs := by
  unfold sortFields
  induction fs with
  | nil => rfl
  | cons f rest ih => rw [List.insertionSort_cons, member?_orderedInsert, member?, ih, member?]

theorem member?_orderedFields (name : String) (fs : List (String × Json)) :
    member? name (orderedFields fs) = (member? name fs).map ordered := by
  induction fs with
  | nil => rfl
  | cons f rest ih =>
    rw [orderedFields, member?, member?, ih]
    split <;> rfl

/-- Under every name `gs` has what `fs` has, put in order. -/
def Reordered (fs gs : List (String × Json)) : Prop :=
  ∀ name, member? name gs = (member? name fs).map ordered

theorem reordered_sortFields (fs : List (String × Json)) :
    Reordered fs (sortFields (orderedFields fs)) := by
  intro name
  rw [member?_sortFields, member?_orderedFields]

theorem zip_orderedItems (names : List String) (items : List Json) :
    names.zip (orderedItems items) = orderedFields (names.zip items) := by
  induction names generalizing items with
  | nil => rfl
  | cons n rest ih =>
    cases items with
    | nil => rfl
    | cons j js => rw [orderedItems, List.zip_cons_cons, ih, List.zip_cons_cons, orderedFields]

end Json

end PointerSemantics
