import PointerSemantics.Json.Form
import Mathlib.Data.List.Basic
import PointerSemantics.Proofs.Json.Order

/-!
# Forms that lose nothing

Two things are said of every form. It is *blind* to the order of members: a document and the same
document with its members in order are read alike (`Blind`). And it is exact on a value, which comes
down to the bounds of the numbers in it. Together a value is read back from any document that is the
same as the one written, and two values are written as different documents (`Blind.lossless`).
-/

namespace PointerSemantics

/-- A number of at most `width` bits. -/
def Word.InBits (width n : Nat) : Prop := n < Nat.pow 2 width

instance (width n : Nat) : Decidable (Word.InBits width n) :=
  inferInstanceAs (Decidable (n < Nat.pow 2 width))

namespace Form

open Json (member? member?_orderedFields ordered orderedItems orderedFields sortFields Reordered)

variable {α β : Type} {f : Form α} {g : Form β}

/-- The order of members does not matter to the reader. -/
def Blind (f : Form α) : Prop := ∀ j : Json, f.read j.ordered = f.read j

theorem read_write_iff {a : α} : f.read (f.write a) = some a ↔ f.ExactOn a := Iff.rfl

theorem Blind.read_congr (hf : f.Blind) {j k : Json} (h : j.Same k) : f.read j = f.read k := by
  rw [← hf j, h, hf k]

theorem ExactOn.read_of_same {a : α} (ha : f.ExactOn a) (hf : f.Blind) {j : Json}
    (h : j.Same (f.write a)) : f.read j = some a := by
  rw [hf.read_congr h, ha]

theorem ExactOn.eq_of_same {a b : α} (ha : f.ExactOn a) (hb : f.ExactOn b) (hf : f.Blind)
    (h : Json.Same (f.write a) (f.write b)) : a = b := by
  have hread := ha.symm.trans (hb.read_of_same hf h)
  exact Option.some.inj hread

/-- Exactly the values in range are read back, from whatever is the same document as the one written,
and any two of them are written as different documents. -/
structure Lossless (f : Form α) (inRange : α → Prop) : Prop where
  read_iff : ∀ a, (∀ j : Json, j.Same (f.write a) → f.read j = some a) ↔ inRange a
  distinct : ∀ a b, inRange a → inRange b → a ≠ b → ¬Json.Same (f.write a) (f.write b)

theorem Blind.lossless {inRange : α → Prop} (hf : f.Blind) (h : ∀ {a}, f.ExactOn a ↔ inRange a) :
    f.Lossless inRange where
  read_iff a := by
    rw [← h]
    exact ⟨fun hread => hread (f.write a) rfl, fun ha j hj => ha.read_of_same hf hj⟩
  distinct a b ha hb hab hsame := hab ((h.2 ha).eq_of_same (h.2 hb) hf hsame)

/-! ## Scalars -/

theorem blind_word (width : Nat) : (word width).Blind := by
  intro j
  cases j <;> rfl

theorem exactOn_word {width n : Nat} : (word width).ExactOn n ↔ Word.InBits width n := by
  show (if 0 ≤ (n : Int) ∧ (n : Int).toNat < Nat.pow 2 width then some (n : Int).toNat else none) =
    some n ↔ n < Nat.pow 2 width
  rw [Int.toNat_natCast]
  split
  · next h => exact iff_of_true rfl h.2
  · next h => exact iff_of_false nofun fun hn => h ⟨Int.natCast_nonneg n, hn⟩

theorem eq_of_read_word {width n m : Nat} (h : (word width).read (Json.nat n) = some m) : m = n := by
  simp only [word, Json.nat, Int.toNat_natCast] at h
  split at h
  · exact (Option.some.inj h).symm
  · cases h

theorem read_word64_iff {n : Nat} : word64.read (Json.nat n) = some n ↔ Word.InBits 64 n :=
  exactOn_word

theorem read_word32_iff {n : Nat} : word32.read (Json.nat n) = some n ↔ Word.InBits 32 n :=
  exactOn_word

theorem blind_bool : bool.Blind := by
  intro j
  cases j <;> rfl

theorem blind_string : string.Blind := by
  intro j
  cases j <;> rfl

theorem read_bool (b : Bool) : bool.read (.bool b) = some b := rfl

theorem exactOn_string (s : String) : string.ExactOn s := rfl

theorem read_string (s : String) : string.read (.str s) = some s := rfl

/-! ## Collections -/

theorem Blind.option (hf : f.Blind) : f.option.Blind := by
  intro j
  cases j with
  | null => rfl
  | _ => exact congrArg (Option.map some) (hf _)

theorem read_option_of_ne_null {j : Json} (h : j ≠ .null) :
    f.option.read j = (f.read j).map some := by
  cases j with
  | null => exact absurd rfl h
  | _ => rfl

/-- Where `null` is no value, it can stand for the absence of one. -/
theorem exactOn_option (hnull : f.read .null = none) {o : Option α} :
    f.option.ExactOn o ↔ ∀ a ∈ o, f.ExactOn a := by
  cases o with
  | none => simp [ExactOn, Form.option]
  | some a =>
    show f.option.read (f.write a) = some (some a) ↔ ∀ b ∈ some a, f.read (f.write b) = some b
    by_cases h : f.write a = .null
    · simp [h, hnull, Form.option]
    · simp [read_option_of_ne_null h]

theorem exactOn_option_word {width : Nat} {o : Option Nat} :
    (word width).option.ExactOn o ↔ ∀ n ∈ o, Word.InBits width n :=
  (exactOn_option rfl).trans (forall₂_congr fun _ _ => exactOn_word)

theorem Blind.list (hf : f.Blind) : f.list.Blind := by
  intro j
  cases j with
  | arr items =>
    show (orderedItems items).mapM f.read = items.mapM f.read
    rw [Json.orderedItems_eq_map]
    induction items with
    | nil => rfl
    | cons j rest ih => rw [List.map_cons, List.mapM_cons, List.mapM_cons, hf, ih]
  | _ => rfl

/-- A list is read back from its items if and only if each item is. -/
theorem mapM_map_eq_some_iff {γ : Type} {read : γ → Option α} {write : α → γ} {as : List α} :
    (as.map write).mapM read = some as ↔ ∀ a ∈ as, read (write a) = some a := by
  induction as with
  | nil => simp
  | cons a rest ih =>
    rw [List.forall_mem_cons, ← ih, List.map_cons, List.mapM_cons]
    simp [Option.bind_eq_some_iff]

/-- What every item keeps when it is read, the list keeps. -/
theorem map_eq_of_mapM {γ δ : Type} {read : γ → Option β} {write : α → γ} {v : β → δ} {w : α → δ}
    (h : ∀ a b, read (write a) = some b → v b = w a) {as : List α} {bs : List β}
    (hbs : (as.map write).mapM read = some bs) : bs.map v = as.map w := by
  induction as generalizing bs with
  | nil =>
    obtain rfl : [] = bs := by simpa using hbs
    rfl
  | cons a rest ih =>
    rw [List.map_cons, List.mapM_cons] at hbs
    obtain ⟨b, hb, hbs⟩ := Option.bind_eq_some_iff.1 hbs
    obtain ⟨cs, hcs, hbs⟩ := Option.bind_eq_some_iff.1 hbs
    obtain rfl := Option.some.inj hbs
    rw [List.map_cons, List.map_cons, h a b hb, ih hcs]

theorem exactOn_list {as : List α} : f.list.ExactOn as ↔ ∀ a ∈ as, f.ExactOn a :=
  mapM_map_eq_some_iff

theorem Blind.pair (hf : f.Blind) (hg : g.Blind) : (f.pair g).Blind := by
  intro j
  cases j with
  | arr items =>
    rcases items with _ | ⟨a, _ | ⟨b, _ | ⟨c, rest⟩⟩⟩
    · rfl
    · rfl
    · show (do return (← f.read a.ordered, ← g.read b.ordered)) = (do return (← f.read a, ← g.read b))
      rw [hf, hg]
    · rfl
  | _ => rfl

theorem exactOn_pair {p : α × β} : (f.pair g).ExactOn p ↔ f.ExactOn p.1 ∧ g.ExactOn p.2 := by
  obtain ⟨a, b⟩ := p
  simp [ExactOn, Form.pair, Option.bind_eq_some_iff]

theorem blind_addrSet : addrSet.Blind := fun j =>
  congrArg (Option.map AddrSet.ofList) ((blind_word 64).list j)

theorem exactOn_addrSet {s : AddrSet} : addrSet.ExactOn s ↔ ∀ a ∈ s, Word.InBits 64 a := by
  have hlist : word64.list.ExactOn s.toList ↔ ∀ a ∈ s, Word.InBits 64 a :=
    exactOn_list.trans (forall₂_congr fun a _ => exactOn_word)
  have hself : AddrSet.ofList s.toList = s := AddrSet.ext_mem fun _ => AddrSet.mem_ofList
  rw [← hlist]
  show (word64.list.read (word64.list.write s.toList)).map AddrSet.ofList = some s ↔
    word64.list.read (word64.list.write s.toList) = some s.toList
  constructor
  · intro h
    obtain ⟨as, has, -⟩ := Option.map_eq_some_iff.1 h
    -- a number that is read back at all is read back as itself
    have hsame : as.map id = s.toList.map id := map_eq_of_mapM (fun a b hb => eq_of_read_word hb) has
    rw [List.map_id, List.map_id] at hsame
    rw [has, hsame]
  · intro h
    rw [h, Option.map_some, hself]

/-! ## Constructors -/

theorem readTagged_ordered (j : Json) :
    readTagged j.ordered = (readTagged j).map fun (name, k) => (name, k.ordered) := by
  cases j with
  | obj fields =>
    rcases fields with _ | ⟨f, _ | ⟨g, rest⟩⟩
    · rfl
    · rfl
    · obtain ⟨h, i, hs, heq⟩ := Json.exists_ordered_obj f g rest
      rw [heq]
      rfl
  | _ => rfl

theorem readName_obj_cons_cons (f g : String × Json) (rest : List (String × Json)) :
    readName (.obj (f :: g :: rest)) = none := by
  obtain ⟨name, k⟩ := f
  cases k <;> rfl

theorem readName_ordered (j : Json) : readName j.ordered = readName j := by
  cases j with
  | obj fields =>
    rcases fields with _ | ⟨⟨name, k⟩, _ | ⟨g, rest⟩⟩
    · rfl
    · cases k <;> rfl
    · obtain ⟨h, i, hs, heq⟩ := Json.exists_ordered_obj (name, k) g rest
      rw [heq, readName_obj_cons_cons, readName_obj_cons_cons]
  | _ => rfl

theorem oneOf_str (units : List (String × α)) (arms : List (String × (Json → Option α)))
    (name : String) : oneOf units arms (.str name) = units.lookup name := by
  have hname : readName (.str name) = some name := rfl
  unfold oneOf
  rw [hname, Option.bind_some]
  cases units.lookup name <;> rfl

theorem oneOf_tagged {units : List (String × α)} {arms : List (String × (Json → Option α))}
    {name : String} (h : ∀ u ∈ units, u.1 ≠ name) (k : Json) :
    oneOf units arms (tagged name k) = (arms.lookup name).bind (· k) := by
  have hunit : units.lookup name = none :=
    List.lookup_eq_none_iff.2 fun u hu => bne_iff_ne.2 (h u hu).symm
  have hname : (readName (tagged name k)).bind (List.lookup · units) = none := by
    cases k <;> first | exact hunit | rfl
  unfold oneOf
  rw [hname]
  rfl

/-- A choice is blind if every constructor reads its argument blindly. -/
theorem blind_oneOf {units : List (String × α)} {arms : List (String × (Json → Option α))}
    (h : arms.Forall fun arm => ∀ k : Json, arm.2 k.ordered = arm.2 k) (j : Json) :
    oneOf units arms j.ordered = oneOf units arms j := by
  unfold oneOf
  rw [readName_ordered, readTagged_ordered]
  split
  · rfl
  · rcases readTagged j with _ | ⟨name, k⟩
    · rfl
    show (arms.lookup name).bind (· k.ordered) = (arms.lookup name).bind (· k)
    cases harm : arms.lookup name with
    | none => rfl
    | some arm =>
      obtain ⟨before, after, rfl, -⟩ := List.lookup_eq_some_iff.1 harm
      exact List.forall_iff_forall_mem.1 h (name, arm) (by simp) k

theorem blind_enumeration (all : List α) (name : α → String) : (enumeration all name).Blind := by
  intro j
  simp only [enumeration, readName_ordered]

/-- Constructors that are listed and have names of their own are told apart. -/
theorem exactOn_enumeration {all : List α} {name : α → String} {a : α}
    (h : all.find? (fun b => name b == name a) = some a) : (enumeration all name).ExactOn a := h

/-! ## Records -/

theorem readRecord_ordered {names : List String} {k : List (String × Json) → Option α}
    (hk : ∀ fs gs, Reordered fs gs → k gs = k fs) (j : Json) :
    (readRecord names j.ordered).bind k = (readRecord names j).bind k := by
  cases j with
  | obj fields => exact hk _ _ (Json.reordered_sortFields fields)
  | arr items =>
    have hzip : k (names.zip (orderedItems items)) = k (names.zip items) := by
      rw [Json.zip_orderedItems]
      exact hk _ _ (member?_orderedFields · _)
    have hlen : (orderedItems items).length = items.length := by
      rw [Json.orderedItems_eq_map, List.length_map]
    simp only [readRecord, ordered, hlen]
    split
    · exact hzip
    · rfl
  | _ => rfl

theorem readMembers_ordered {k : List (String × Json) → Option α}
    (hk : ∀ fs gs, Reordered fs gs → k gs = k fs) (j : Json) :
    (readMembers j.ordered).bind k = (readMembers j).bind k := by
  cases j with
  | obj fields => exact hk _ _ (Json.reordered_sortFields fields)
  | _ => rfl

/-! ## What is written under a name -/

theorem need_cons (name other : String) (j : Json) (fs : List (String × Json)) :
    f.need ((name, j) :: fs) other = if name = other then f.read j else f.need fs other := by
  unfold Form.need
  rw [member?]
  split <;> rfl

theorem may_cons (name other : String) (j : Json) (fs : List (String × Json)) :
    f.may ((name, j) :: fs) other = if name = other then f.option.read j else f.may fs other := by
  unfold Form.may
  rw [member?]
  split
  · next heq => split at heq <;> simp_all
  · next heq => split at heq <;> simp_all

end Form

/-! ## Members in another order -/

namespace Json

open Form (Blind)

variable {α : Type} {f : Form α} {fs gs : List (String × Json)}

theorem Reordered.need (h : Reordered fs gs) (hf : f.Blind) (name : String) :
    f.need gs name = f.need fs name := by
  unfold Form.need
  rw [h name]
  cases member? name fs with
  | none => rfl
  | some j => exact hf j

theorem Reordered.may (h : Reordered fs gs) (hf : f.Blind) (name : String) :
    f.may gs name = f.may fs name := by
  unfold Form.may
  rw [h name]
  cases member? name fs with
  | none => rfl
  | some j => exact hf.option j

end Json

end PointerSemantics
