/-!
# Finite sets of addresses

Twin addresses of a block and the addresses an in-bounds computation passed through are sets: the
order in which they were found and repetitions do not matter. An `AddrSet` keeps its members in
strictly increasing order, so equal sets are equal values and are written in one way.
-/

namespace PointerSemantics

/-- A finite set of addresses, as its members in strictly increasing order. -/
structure AddrSet where
  toList : List Nat
  sorted : toList.Pairwise (· < ·)
deriving DecidableEq

namespace AddrSet

def insertMember (a : Nat) : List Nat → List Nat
  | [] => [a]
  | b :: rest => if a < b then a :: b :: rest else if a = b then b :: rest else b :: insertMember a rest

theorem mem_insertMember {a x : Nat} {as : List Nat} :
    x ∈ insertMember a as ↔ x = a ∨ x ∈ as := by
  induction as with
  | nil => simp [insertMember]
  | cons b rest ih => unfold insertMember; grind

theorem sorted_insertMember (a : Nat) {as : List Nat} (h : as.Pairwise (· < ·)) :
    (insertMember a as).Pairwise (· < ·) := by
  induction as with
  | nil => simp [insertMember]
  | cons b rest ih =>
    have hb := List.pairwise_cons.1 h
    unfold insertMember
    split
    · next hlt =>
      refine List.pairwise_cons.2 ⟨fun x hx => ?_, h⟩
      rcases List.mem_cons.1 hx with hx | hx
      · exact hx ▸ hlt
      · exact Nat.lt_trans hlt (hb.1 x hx)
    · split
      · exact h
      · next hlt hne =>
        refine List.pairwise_cons.2 ⟨fun x hx => ?_, ih hb.2⟩
        rcases mem_insertMember.1 hx with hx | hx
        · omega
        · exact hb.1 x hx

def empty : AddrSet := ⟨[], .nil⟩

instance : Inhabited AddrSet := ⟨empty⟩

instance : Membership Nat AddrSet := ⟨fun s a => a ∈ s.toList⟩

instance (a : Nat) (s : AddrSet) : Decidable (a ∈ s) := inferInstanceAs (Decidable (a ∈ s.toList))

def insert (s : AddrSet) (a : Nat) : AddrSet :=
  ⟨insertMember a s.toList, sorted_insertMember a s.sorted⟩

def ofList (as : List Nat) : AddrSet := as.foldl insert empty

@[simp] theorem not_mem_empty (a : Nat) : a ∉ empty := List.not_mem_nil

@[simp] theorem mem_insert {s : AddrSet} {a x : Nat} : x ∈ s.insert a ↔ x = a ∨ x ∈ s :=
  mem_insertMember

theorem mem_foldl_insert {as : List Nat} {s : AddrSet} {x : Nat} :
    x ∈ as.foldl insert s ↔ x ∈ as ∨ x ∈ s := by
  induction as generalizing s with
  | nil => simp
  | cons a rest ih => rw [List.foldl_cons, ih, mem_insert, List.mem_cons]; grind

@[simp] theorem mem_ofList {as : List Nat} {x : Nat} : x ∈ ofList as ↔ x ∈ as := by
  simp [ofList, mem_foldl_insert]

/-- The members determine the set. -/
theorem ext_mem {s t : AddrSet} (h : ∀ x, x ∈ s ↔ x ∈ t) : s = t := by
  obtain ⟨as, ha⟩ := s
  obtain ⟨bs, hb⟩ := t
  have hs : as = bs := List.Perm.eq_of_pairwise (fun a b _ _ hab hba => by omega) ha hb <|
    (List.perm_ext_iff_of_nodup (ha.imp Nat.ne_of_lt) (hb.imp Nat.ne_of_lt)).2 h
  subst hs
  rfl

end AddrSet

end PointerSemantics
