import PointerSemantics.Proofs.Json.Forms
import PointerSemantics.Proofs.Memory.Commute
import Mathlib.Data.List.Induction

/-!
# Tables as JSON

The names in the object of a table are its keys in decimal. A number has one spelling
(`readDecimal_eq_some_iff`), so two names that differ are two keys, and what a table becomes does not
depend on the order of the members; where one name is given twice, its last value stays in any order
that keeps the two as they are.
-/

namespace PointerSemantics

/-! ## Entries in order -/

namespace Table

variable {α : Type}

theorem insertEntry_of_lt {k : Nat} {v : α} {es : List (Nat × α)} (h : ∀ e ∈ es, e.1 < k) :
    insertEntry k v es = es ++ [(k, v)] := by
  induction es with
  | nil => rfl
  | cons e rest ih =>
    obtain ⟨he, hrest⟩ := List.forall_mem_cons.1 h
    obtain ⟨j, w⟩ := e
    have hle : ¬k < j := Nat.lt_asymm he
    have hne : k ≠ j := Nat.ne_of_gt he
    rw [insertEntry, if_neg hle, if_neg hne, ih hrest, List.cons_append]

/-- Entries whose keys go on growing are put behind those that are there. -/
theorem entries_insertMany {t : Table α} {es : List (Nat × α)}
    (h : (t.entries ++ es).Pairwise (·.1 < ·.1)) : (t.insertMany es).entries = t.entries ++ es := by
  induction es generalizing t with
  | nil => exact (List.append_nil _).symm
  | cons e rest ih =>
    have hlt : ∀ d ∈ t.entries, d.1 < e.1 := fun d hd =>
      (List.pairwise_append.1 h).2.2 d hd e List.mem_cons_self
    have hinsert : (t.insert e.1 e.2).entries = t.entries ++ [e] := insertEntry_of_lt hlt
    have hrest := ih (t := t.insert e.1 e.2) (by rwa [hinsert, List.append_assoc])
    rwa [hinsert, List.append_assoc] at hrest

theorem entries_ofList {es : List (Nat × α)} (h : es.Pairwise (·.1 < ·.1)) :
    (ofList es).entries = es :=
  entries_insertMany (t := .empty) h

theorem eq_of_entries {s t : Table α} (h : s.entries = t.entries) : s = t := by
  cases s
  cases t
  simpa using h

end Table

namespace Form

open Json (NameLE sortFields orderedFields)

/-! ## Numbers in decimal -/

theorem digitChar_of_isDigit {c : Char} (h : c.isDigit = true) :
    c.toNat - '0'.toNat < 10 ∧ Nat.digitChar (c.toNat - '0'.toNat) = c := by
  have hc := Char.isDigit_iff_toNat.1 h
  simp only [Char.reduceToNat] at hc ⊢
  have hlt : c.toNat - 48 < 10 := by omega
  refine ⟨hlt, Char.toNat_inj.1 ?_⟩
  rw [Nat.toNat_digitChar_of_lt_ten hlt]
  omega

/-- Digits that do not begin with zero are those of their value. -/
theorem toDigits_ofDigitChars {c : Char} {cs : List Char} (hc : c ≠ '0')
    (h : ∀ d ∈ c :: cs, d.isDigit = true) :
    Nat.toDigits 10 (Nat.ofDigitChars 10 (c :: cs) 0) = c :: cs := by
  induction cs using List.reverseRecOn with
  | nil =>
    obtain ⟨hlt, hdigit⟩ := digitChar_of_isDigit (h c List.mem_cons_self)
    simp only [Nat.ofDigitChars, List.foldl_cons, List.foldl_nil, Nat.mul_zero, Nat.zero_add]
    rw [Nat.toDigits_of_lt_base hlt, hdigit]
  | append_singleton cs d ih =>
    have hcs := ih fun e he => h e (List.mem_append_left [d] he)
    obtain ⟨hlt, hdigit⟩ := digitChar_of_isDigit (h d (by simp))
    have hpos : 0 < Nat.ofDigitChars 10 (c :: cs) 0 := by
      refine Nat.pos_of_ne_zero fun h0 => hc ?_
      rw [h0, Nat.toDigits_zero] at hcs
      exact (List.cons.inj hcs).1.symm
    have happend : Nat.ofDigitChars 10 (c :: (cs ++ [d])) 0
        = 10 * Nat.ofDigitChars 10 (c :: cs) 0 + (d.toNat - '0'.toNat) := by
      simp only [Nat.ofDigitChars, List.foldl_cons, List.foldl_append, List.foldl_nil]
    rw [happend, ← Nat.toDigits_append_toDigits (by decide) hpos hlt, hcs,
      Nat.toDigits_of_lt_base hlt, hdigit, List.cons_append]

/-- Only zero has a zero for its first digit. -/
theorem exists_toDigits_eq_cons {n : Nat} (h : n ≠ 0) :
    ∃ c cs, Nat.toDigits 10 n = c :: cs ∧ c ≠ '0' := by
  induction n using Nat.strongRecOn with
  | ind n ih =>
    by_cases hn : n < 10
    · refine ⟨n.digitChar, [], Nat.toDigits_of_lt_base hn, fun h0 => h ?_⟩
      exact Nat.digitChar_eq_zero.1 h0
    · obtain ⟨c, cs, hcs, hc⟩ := ih (n / 10) (by omega) (by omega)
      refine ⟨c, cs ++ [(n % 10).digitChar], ?_, hc⟩
      rw [Nat.toDigits_of_base_le (by decide) (by omega), hcs, List.cons_append]

theorem readDecimal_toString (n : Nat) : readDecimal (toString n) = some n := by
  have hdigits : (toString n).toList = Nat.toDigits 10 n := by
    rw [Nat.toString_eq_ofList_toDigits, String.toList_ofList]
  unfold readDecimal
  rw [hdigits]
  by_cases h : n = 0
  · subst h
    rfl
  · obtain ⟨c, cs, hcs, hc⟩ := exists_toDigits_eq_cons h
    have hall : (c :: cs).all Char.isDigit = true := by
      rw [← hcs, List.all_eq_true]
      exact fun d hd => Nat.isDigit_of_mem_toDigits (by decide) (by decide) hd
    have hvalue : Nat.ofDigitChars 10 (c :: cs) 0 = n := by
      rw [← hcs]
      exact Nat.ofDigitChars_toDigits (by decide) (by decide)
    rw [hcs]
    split
    · next heq => cases heq
    · next heq => exact absurd (List.cons.inj heq).1 hc
    · next heq =>
      cases heq
      rw [if_pos (by rw [hall, Bool.and_true, bne_iff_ne]; exact hc)]
      exact congrArg some hvalue

/-- A number has one spelling. -/
theorem readDecimal_eq_some_iff {s : String} {n : Nat} :
    readDecimal s = some n ↔ s = toString n := by
  constructor
  · intro h
    have hs : s.toList = Nat.toDigits 10 n := by
      unfold readDecimal at h
      split at h
      · cases h
      · next heq =>
        cases h
        rw [heq, Nat.toDigits_zero]
      · next c cs _ heq =>
        split at h
        · next hdigits =>
          rw [Bool.and_eq_true, bne_iff_ne, List.all_eq_true] at hdigits
          rw [heq, ← Option.some.inj h]
          exact (toDigits_ofDigitChars hdigits.1 hdigits.2).symm
        · cases h
    rw [Nat.toString_eq_ofList_toDigits, ← hs, String.ofList_toList]
  · rintro rfl
    exact readDecimal_toString n

theorem readKey_eq_some_iff {width k : Nat} {s : String} :
    readKey width s = some k ↔ s = toString k ∧ Word.InBits width k := by
  simp [readKey, Option.filter_eq_some_iff, readDecimal_eq_some_iff, Word.InBits]

/-! ## Entries -/

variable {α : Type} {f : Form α} {width : Nat}

/-- The entry that a member stands for. -/
def readEntry (width : Nat) (f : Form α) (m : String × Json) : Option (Nat × α) := do
  return (← readKey width m.1, ← f.read m.2)

theorem readEntry_eq_some_iff {m : String × Json} {e : Nat × α} :
    readEntry width f m = some e ↔
      (m.1 = toString e.1 ∧ Word.InBits width e.1) ∧ f.read m.2 = some e.2 := by
  obtain ⟨k, v⟩ := e
  simp [readEntry, Option.bind_eq_some_iff, readKey_eq_some_iff]

/-- The table with the entries of some members put in, one after the other. -/
def insertRead (width : Nat) (f : Form α) (t : Table α) (ms : List (String × Json)) :
    Option (Table α) :=
  (ms.mapM (readEntry width f)).map t.insertMany

theorem read_table_obj (ms : List (String × Json)) :
    (f.table width).read (.obj ms) = insertRead width f .empty ms := by
  show (do return Table.ofList (← ms.mapM (readEntry width f))) = _
  unfold insertRead
  cases ms.mapM (readEntry width f) <;> rfl

theorem insertRead_cons (t : Table α) (m : String × Json) (ms : List (String × Json)) :
    insertRead width f t (m :: ms) =
      (readEntry width f m).bind fun e => insertRead width f (t.insert e.1 e.2) ms := by
  unfold insertRead
  rw [List.mapM_cons]
  cases readEntry width f m with
  | none => rfl
  | some e => cases ms.mapM (readEntry width f) <;> rfl

theorem insertRead_swap (t : Table α) {m n : String × Json} (h : m.1 ≠ n.1)
    (ms : List (String × Json)) :
    insertRead width f t (m :: n :: ms) = insertRead width f t (n :: m :: ms) := by
  simp only [insertRead_cons]
  cases hm : readEntry width f m with
  | none => cases readEntry width f n <;> rfl
  | some d =>
    cases hn : readEntry width f n with
    | none => rfl
    | some e =>
      have hkeys : d.1 ≠ e.1 := fun hde => h <| by
        rw [(readEntry_eq_some_iff.1 hm).1.1, (readEntry_eq_some_iff.1 hn).1.1, hde]
      simp only [Option.bind_some]
      rw [Table.insert_comm t hkeys]

theorem insertRead_orderedInsert (t : Table α) (m : String × Json) (ms : List (String × Json)) :
    insertRead width f t (ms.orderedInsert NameLE m) = insertRead width f t (m :: ms) := by
  induction ms generalizing t with
  | nil => rfl
  | cons n rest ih =>
    rw [List.orderedInsert_cons]
    split
    · rfl
    · next hmn =>
      rw [insertRead_swap t (Json.ne_of_not_nameLE hmn), insertRead_cons, insertRead_cons]
      exact congrArg _ (funext fun e => ih _)

theorem insertRead_sortFields (t : Table α) (ms : List (String × Json)) :
    insertRead width f t (sortFields ms) = insertRead width f t ms := by
  unfold sortFields
  induction ms generalizing t with
  | nil => rfl
  | cons m rest ih =>
    rw [List.insertionSort_cons, insertRead_orderedInsert, insertRead_cons, insertRead_cons]
    exact congrArg _ (funext fun e => ih _)

theorem Blind.mapM_orderedFields (hf : f.Blind) (ms : List (String × Json)) :
    (orderedFields ms).mapM (readEntry width f) = ms.mapM (readEntry width f) := by
  induction ms with
  | nil => rfl
  | cons m rest ih =>
    have hm : readEntry width f (m.1, m.2.ordered) = readEntry width f m := by
      simp only [readEntry, hf m.2]
    rw [orderedFields, List.mapM_cons, List.mapM_cons, ih, hm]

theorem Blind.table (hf : f.Blind) (width : Nat) : (f.table width).Blind := by
  intro j
  cases j with
  | obj ms =>
    rw [Json.ordered, read_table_obj, read_table_obj, insertRead_sortFields]
    exact congrArg (Option.map _) (hf.mapM_orderedFields ms)
  | _ => rfl

/-! ## Reading a table back -/

/-- A key is read back as it was written, if it is read at all. -/
theorem key_of_readEntry {k : Nat} {j : Json} {e : Nat × α}
    (h : readEntry width f (toString k, j) = some e) : e.1 = k := by
  have hkey : readDecimal (toString k) = some e.1 :=
    readDecimal_eq_some_iff.2 (readEntry_eq_some_iff.1 h).1.1
  exact Option.some.inj (hkey.symm.trans (readDecimal_toString k))

/-- A table is read back if and only if its keys have the width and its values are. -/
theorem exactOn_table {t : Table α} :
    (f.table width).ExactOn t ↔ ∀ e ∈ t.entries, Word.InBits width e.1 ∧ f.ExactOn e.2 := by
  have hwrite : ∀ e : Nat × α, readEntry width f (toString e.1, f.write e.2) = some e ↔
      Word.InBits width e.1 ∧ f.ExactOn e.2 := fun e => by
    rw [readEntry_eq_some_iff, eq_self, true_and, read_write_iff]
  rw [← forall₂_congr fun e _ => hwrite e, ← mapM_map_eq_some_iff]
  show (f.table width).read ((f.table width).write t) = some t ↔ _
  constructor
  · intro h
    obtain ⟨es, hes, hofList⟩ := Option.map_eq_some_iff.1 ((read_table_obj _).symm.trans h)
    -- the keys are those of the table, so the entries are sorted and making a table keeps them
    have hkeys : es.map (·.1) = t.entries.map (·.1) :=
      map_eq_of_mapM (fun _ _ he => key_of_readEntry he) hes
    have hsorted : es.Pairwise (·.1 < ·.1) := by
      have ht : (t.entries.map (·.1)).Pairwise (· < ·) := List.pairwise_map.2 t.sorted
      rw [← hkeys] at ht
      exact List.pairwise_map.1 ht
    have hentries : t.entries = es := by
      rw [← hofList]
      exact Table.entries_ofList hsorted
    exact hes.trans (congrArg some hentries.symm)
  · intro h
    have htable : Table.ofList t.entries = t := Table.eq_of_entries (Table.entries_ofList t.sorted)
    refine (read_table_obj _).trans ?_
    unfold insertRead
    rw [h]
    exact congrArg some htable

end Form

end PointerSemantics
