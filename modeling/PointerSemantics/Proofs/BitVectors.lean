import PointerSemantics.Proofs.Checked.Operands

/-!
# Integers are bit vectors

An integer of `w` bits is a number below `2 ^ w`, and all widths are computed with in the same words of 64
bits. `BinOp.onVec` and `Pred.onVec` say what the operators and predicates are on bit vectors of width `w`:
the operations of `BitVec`, except for the shifts that are poison and the divisions that are undefined.
On numbers they do the same (`BinOp.eval_toNat`, `Pred.eval_toNat`), for every width up to 64, and on the way
no operation on words is without result (`BinOp.eval_eq_onVec_and_defined`).
-/

namespace PointerSemantics

/-- The integer in a register whose bits are those of `x`. -/
def Value.ofVec {w : Nat} (x : BitVec w) : Value := .num w x.toNat

/-! ## Operators on bit vectors -/

namespace BinOp

section

variable {w : Nat}

/-- A shift. By the width or more, the result is poison. -/
def shiftVec (shift : BitVec w → Nat → BitVec w) (x y : BitVec w) : Value :=
  if w ≤ y.toNat then .poison else .ofVec (shift x y.toNat)

/-- A quotient or remainder of unsigned integers. Dividing by zero is undefined. -/
def divideVec (divide : BitVec w → BitVec w → BitVec w) (x y : BitVec w) : Exec Value :=
  if y = 0#w then Exec.wrong .divisionByZero else .ok (.ofVec (divide x y))

/-- A quotient or remainder of signed integers. Dividing by zero is undefined, and so is dividing the least
integer by `-1`: the quotient would be one more than the greatest integer. -/
def divideSignedVec (divide : BitVec w → BitVec w → BitVec w) (x y : BitVec w) : Exec Value :=
  if y = 0#w then Exec.wrong .divisionByZero
  else if x = BitVec.intMin w ∧ y = -1#w then Exec.wrong .divisionOverflow
  else .ok (.ofVec (divide x y))

/-- What an operator does with bit vectors. -/
def onVec (op : BinOp) (x y : BitVec w) : Exec Value :=
  match op with
  | add => .ok (.ofVec (x + y))
  | sub => .ok (.ofVec (x - y))
  | mul => .ok (.ofVec (x * y))
  | and => .ok (.ofVec (x &&& y))
  | or => .ok (.ofVec (x ||| y))
  | xor => .ok (.ofVec (x ^^^ y))
  | shl => .ok (shiftVec BitVec.shiftLeft x y)
  | lshr => .ok (shiftVec BitVec.ushiftRight x y)
  | ashr => .ok (shiftVec BitVec.sshiftRight x y)
  | udiv => divideVec BitVec.udiv x y
  | urem => divideVec BitVec.umod x y
  | sdiv => divideSignedVec BitVec.sdiv x y
  | srem => divideSignedVec BitVec.srem x y

end

end BinOp

/-- What a predicate says of bit vectors. -/
def Pred.onVec {w : Nat} (pred : Pred) (x y : BitVec w) : Bool :=
  match pred with
  | eq => x == y
  | ne => x != y
  | ult => x.ult y
  | ule => x.ule y
  | ugt => y.ult x
  | uge => y.ule x
  | slt => x.slt y
  | sle => x.sle y
  | sgt => y.slt x
  | sge => y.sle x

/-! ## Numbers and bit vectors -/

section Numbers

variable {w : Nat}

theorem Value.ofBits_eq_ofVec (h : w ≤ maxIntBits) {n : Nat} {z : BitVec w} (hz : z.toNat = n % 2 ^ w) :
    ofBits w n = ofVec z := by
  unfold ofBits ofVec Word.truncate
  rw [Word.modulus_of_le h, hz]

theorem Value.ofBits_toNat (h : w ≤ maxIntBits) (z : BitVec w) : ofBits w z.toNat = ofVec z :=
  ofBits_eq_ofVec h (Nat.mod_eq_of_lt z.isLt).symm

theorem Value.ofInt_eq_ofVec (h : w ≤ maxIntBits) (i : Int) : ofInt w i = ofVec (BitVec.ofInt w i) := by
  unfold ofInt ofVec Word.ofInt
  rw [Word.modulus_of_le h, BitVec.toNat_ofInt]

theorem Value.ofInt_toInt (h : w ≤ maxIntBits) (z : BitVec w) : ofInt w z.toInt = ofVec z := by
  rw [ofInt_eq_ofVec h, BitVec.ofInt_toInt]

/-- Reading the bits as a signed number is what `BitVec.toInt` does. -/
theorem Word.signed_toNat (h : w ≤ maxIntBits) (x : BitVec w) : signed w x.toNat = x.toInt := by
  unfold signed
  rw [Word.modulus_of_le h, BitVec.toInt_eq_toNat_bmod]

theorem minSigned_eq_toInt (h1 : 1 ≤ w) (h : w ≤ maxIntBits) : minSigned w = (BitVec.intMin w).toInt := by
  have hlt : 2 ^ (w - 1) < 2 ^ w := Nat.pow_lt_pow_right (by decide) (by omega)
  have hbits : (BitVec.intMin w).toNat = 2 ^ (w - 1) := by
    rw [BitVec.toNat_intMin, Nat.mod_eq_of_lt hlt]
  rw [← Word.signed_toNat h, hbits]
  rfl

theorem toInt_neg_one (h1 : 1 ≤ w) : (-1#w).toInt = -1 := by
  rw [BitVec.neg_one_eq_allOnes, BitVec.toInt_allOnes, if_pos (Nat.lt_of_succ_le h1)]

end Numbers

/-! ## Operators on numbers -/

namespace BinOp

section

variable {w : Nat} {x y : BitVec w}

/-- Of the least integer and `-1` the quotient does not fit, and that is the only such pair. -/
theorem overflows_iff (h1 : 1 ≤ w) (h : w ≤ maxIntBits) :
    (Word.signed w x.toNat = minSigned w ∧ Word.signed w y.toNat = -1) ↔
      (x = BitVec.intMin w ∧ y = -1#w) := by
  rw [Word.signed_toNat h, Word.signed_toNat h, minSigned_eq_toInt h1 h, ← toInt_neg_one h1,
    BitVec.toInt_inj, BitVec.toInt_inj]

theorem divide_toNat (op : BinOp) (hop : op.isDivision = true) (h1 : 1 ≤ w) (h : w ≤ maxIntBits)
    (hy : y ≠ 0#w) : op.divide w x.toNat y.toNat = op.onVec x y := by
  cases op with
  | udiv =>
    show Except.ok (Value.ofBits w (x.toNat / y.toNat)) = divideVec BitVec.udiv x y
    unfold divideVec
    rw [if_neg hy, ← BitVec.toNat_udiv, Value.ofBits_toNat h]
    rfl
  | urem =>
    show Except.ok (Value.ofBits w (x.toNat % y.toNat)) = divideVec BitVec.umod x y
    unfold divideVec
    rw [if_neg hy, ← BitVec.toNat_umod, Value.ofBits_toNat h]
    rfl
  | sdiv =>
    unfold divide onVec divideSignedVec
    dsimp only
    rw [if_neg hy]
    by_cases hover : x = BitVec.intMin w ∧ y = -1#w
    · rw [if_pos hover, if_pos ((overflows_iff h1 h).2 hover)]
    · have hquot := BitVec.toInt_sdiv_of_ne_or_ne x y (not_and_or.1 hover)
      rw [if_neg hover, if_neg (mt (overflows_iff h1 h).1 hover), Word.signed_toNat h, Word.signed_toNat h,
        ← hquot, Value.ofInt_toInt h]
  | srem =>
    unfold divide onVec divideSignedVec
    dsimp only
    rw [if_neg hy]
    by_cases hover : x = BitVec.intMin w ∧ y = -1#w
    · rw [if_pos hover, if_pos ((overflows_iff h1 h).2 hover)]
    · rw [if_neg hover, if_neg (mt (overflows_iff h1 h).1 hover), Word.signed_toNat h, Word.signed_toNat h,
        ← BitVec.toInt_srem, Value.ofInt_toInt h]
  | _ => simp [isDivision] at hop

theorem combine_toNat (op : BinOp) (hop : op.isDivision = false) (h : w ≤ maxIntBits) :
    .ok (op.combine w x.toNat y.toNat) = op.onVec x y := by
  cases op with
  | add => exact congrArg Except.ok (Value.ofBits_eq_ofVec h (BitVec.toNat_add x y))
  | mul => exact congrArg Except.ok (Value.ofBits_eq_ofVec h (BitVec.toNat_mul x y))
  | and => exact congrArg Except.ok (Value.ofBits_toNat h (x &&& y))
  | or => exact congrArg Except.ok (Value.ofBits_toNat h (x ||| y))
  | xor => exact congrArg Except.ok (Value.ofBits_toNat h (x ^^^ y))
  | sub =>
    have hdiff : BitVec.ofInt w ((x.toNat : Int) - y.toNat) = x - y := by
      refine BitVec.eq_of_toInt_eq ?_
      rw [BitVec.toInt_ofInt, BitVec.toInt_sub, BitVec.toInt_eq_toNat_bmod, BitVec.toInt_eq_toNat_bmod,
        Int.sub_bmod_bmod, Int.bmod_sub_bmod]
    exact congrArg Except.ok ((Value.ofInt_eq_ofVec h _).trans (congrArg Value.ofVec hdiff))
  | shl =>
    have hbits := Value.ofBits_eq_ofVec h (BitVec.toNat_shiftLeft (x := x) (n := y.toNat))
    unfold combine onVec shiftVec
    dsimp only
    rw [hbits]
    rfl
  | lshr =>
    have hbits := Value.ofBits_toNat h (x.ushiftRight y.toNat)
    unfold combine onVec shiftVec
    dsimp only
    rw [← hbits]
    rfl
  | ashr =>
    have hbits := Value.ofInt_toInt h (x.sshiftRight y.toNat)
    unfold combine onVec shiftVec
    dsimp only
    rw [← hbits, Word.signed_toNat h, BitVec.toInt_sshiftRight]
  | _ => simp [isDivision] at hop

theorem onVec_zero (op : BinOp) (hop : op.isDivision = true) (x : BitVec w) :
    op.onVec x 0#w = Exec.wrong .divisionByZero := by
  have hunsigned : ∀ divide, divideVec divide x 0#w = Exec.wrong .divisionByZero := fun _ => if_pos rfl
  have hsigned : ∀ divide, divideSignedVec divide x 0#w = Exec.wrong .divisionByZero := fun _ => if_pos rfl
  cases op with
  | udiv | urem => exact hunsigned _
  | sdiv | srem => exact hsigned _
  | _ => simp [isDivision] at hop

/-- On numbers, an operator does what it does on bit vectors. -/
theorem eval_toNat (op : BinOp) (h1 : 1 ≤ w) (h : w ≤ maxIntBits) (x y : BitVec w) :
    op.eval w (some x.toNat) (some y.toNat) = op.onVec x y := by
  unfold eval
  by_cases hop : op.isDivision = true
  · rw [if_pos hop]
    by_cases hy : y = 0#w
    · rw [hy, onVec_zero op hop, BitVec.toNat_zero]
      rfl
    · have hne : y.toNat ≠ 0 := fun hzero => hy (BitVec.eq_of_toNat_eq hzero)
      obtain ⟨n, hn⟩ := Nat.exists_eq_succ_of_ne_zero hne
      have hdivide := divide_toNat (x := x) op hop h1 h hy
      rw [hn] at hdivide ⊢
      exact hdivide
  · rw [if_neg hop]
    exact combine_toNat op (Bool.eq_false_iff.2 hop) h

/-! ### Results -/

section Results

variable {v : Value} {f : BitVec w → BitVec w → BitVec w}

theorem shiftVec_cases (shift : BitVec w → Nat → BitVec w) (x y : BitVec w) :
    shiftVec shift x y = .poison ∨ ∃ z : BitVec w, shiftVec shift x y = .ofVec z := by
  unfold shiftVec
  by_cases hwide : w ≤ y.toNat
  · exact .inl (if_pos hwide)
  · exact .inr ⟨_, if_neg hwide⟩

theorem eq_of_divideVec (hv : divideVec f x y = .ok v) : v = .ofVec (f x y) := by
  unfold divideVec at hv
  split at hv
  · cases hv
  · exact (Except.ok.inj hv).symm

theorem eq_of_divideSignedVec (hv : divideSignedVec f x y = .ok v) :
    ¬(x = BitVec.intMin w ∧ y = -1#w) ∧ v = .ofVec (f x y) := by
  unfold divideSignedVec at hv
  split at hv
  · cases hv
  · split at hv
    · cases hv
    · next hover => exact ⟨hover, (Except.ok.inj hv).symm⟩

/-- A result is poison or an integer of the same width. -/
theorem onVec_ok (op : BinOp) (hv : op.onVec x y = .ok v) :
    v = .poison ∨ ∃ z : BitVec w, v = .ofVec z := by
  cases op with
  | add | sub | mul | and | or | xor => exact .inr ⟨_, (Except.ok.inj hv).symm⟩
  | shl | lshr | ashr =>
    have hshift : shiftVec _ x y = v := Except.ok.inj hv
    exact hshift ▸ shiftVec_cases _ x y
  | udiv | urem => exact .inr ⟨_, eq_of_divideVec hv⟩
  | sdiv | srem => exact .inr ⟨_, (eq_of_divideSignedVec hv).2⟩

/-- A signed quotient that is defined is exact. -/
theorem toInt_sdiv (hv : sdiv.onVec x y = .ok v) :
    v = .ofVec (x.sdiv y) ∧ (x.sdiv y).toInt = x.toInt.tdiv y.toInt := by
  obtain ⟨hover, hres⟩ := eq_of_divideSignedVec hv
  exact ⟨hres, BitVec.toInt_sdiv_of_ne_or_ne x y (not_and_or.1 hover)⟩

end Results

end

end BinOp

/-- On numbers, a predicate says what it says of bit vectors. -/
theorem Pred.holds_toNat {w : Nat} (pred : Pred) (h : w ≤ maxIntBits) (x y : BitVec w) :
    pred.holds w x.toNat y.toNat = pred.onVec x y := by
  unfold holds
  rw [Word.signed_toNat h, Word.signed_toNat h]
  cases pred with
  | eq => exact Bool.eq_iff_iff.2 (by simp [onVec, BitVec.toNat_inj])
  | ne => exact Bool.eq_iff_iff.2 (by simp [onVec, BitVec.toNat_inj])
  | _ => rfl

/-! ## All widths -/

/-- A signed number that a word of 64 bits holds. -/
def Word.Holds (i : Int) : Prop := -2 ^ 63 ≤ i ∧ i < 2 ^ 63

theorem Word.holds_toInt {w : Nat} (h : w ≤ maxIntBits) (x : BitVec w) : Holds x.toInt := by
  have hpow : (2 : Int) ^ (w - 1) ≤ 2 ^ 63 := by
    have hexp : w - 1 ≤ 63 := by
      unfold maxIntBits at h
      omega
    exact_mod_cast Nat.pow_le_pow_right (by decide : 0 < 2) hexp
  have hlower := BitVec.le_toInt x
  have hupper := BitVec.toInt_lt (x := x)
  exact ⟨by omega, by omega⟩

/-- Of integers of a width from 1 to 64, every operator and every predicate yields what it yields of the
bit vectors of that width: a number is again one of that width, and computing with words of 64 bits leaves
no operation without result. A signed quotient or remainder that there is, is the exact one, and a word
holds it. -/
theorem eval_eq_onVec_and_defined {w l r : Nat} (h1 : 1 ≤ w) (h : w ≤ maxIntBits) (hl : l < 2 ^ w)
    (hr : r < 2 ^ w) :
    (∀ op : BinOp, op.eval w (some l) (some r) = op.onVec (BitVec.ofNat w l) (BitVec.ofNat w r)) ∧
    (∀ pred : Pred, pred.eval w (some l) (some r) =
      .ofBool (pred.onVec (BitVec.ofNat w l) (BitVec.ofNat w r))) ∧
    (∀ op v, BinOp.eval op w (some l) (some r) = .ok v → v = .poison ∨ ∃ n < 2 ^ w, v = .num w n) ∧
    (∀ op, Checked.operator op w (some l) (some r) = Checked.lift (op.eval w (some l) (some r))) ∧
    (∀ pred, Checked.predicate pred w (some l) (some r) = .ok (pred.eval w (some l) (some r))) ∧
    (∀ v, BinOp.sdiv.eval w (some l) (some r) = .ok v →
      v.signed? = some ((Word.signed w l).tdiv (Word.signed w r)) ∧
      Word.Holds ((Word.signed w l).tdiv (Word.signed w r))) ∧
    (∀ v, BinOp.srem.eval w (some l) (some r) = .ok v →
      v.signed? = some ((Word.signed w l).tmod (Word.signed w r)) ∧
      Word.Holds ((Word.signed w l).tmod (Word.signed w r))) := by
  obtain ⟨x, rfl⟩ : ∃ x : BitVec w, l = x.toNat := ⟨⟨l, hl⟩, rfl⟩
  obtain ⟨y, rfl⟩ : ∃ y : BitVec w, r = y.toNat := ⟨⟨r, hr⟩, rfl⟩
  have hx : BitVec.ofNat w x.toNat = x := by rw [BitVec.ofNat_toNat, BitVec.setWidth_eq]
  have hy : BitVec.ofNat w y.toNat = y := by rw [BitVec.ofNat_toNat, BitVec.setWidth_eq]
  have hvec : ∀ op : BinOp, op.eval w (some x.toNat) (some y.toNat) = op.onVec x y :=
    fun op => op.eval_toNat h1 h x y
  have hsigned : ∀ z : BitVec w, (Value.ofVec z).signed? = some z.toInt :=
    fun z => congrArg some (Word.signed_toNat h z)
  rw [hx, hy, Word.signed_toNat h, Word.signed_toNat h]
  refine ⟨hvec, ?_, ?_, ?_, ?_, ?_, ?_⟩
  · intro pred
    exact congrArg Value.ofBool (pred.holds_toNat h x y)
  · intro op v hv
    rcases op.onVec_ok ((hvec op).symm.trans hv) with hpoison | ⟨z, hz⟩
    · exact .inl hpoison
    · exact .inr ⟨z.toNat, z.isLt, hz⟩
  · intro op
    refine Checked.operator_eq h1 h fun n hn => ?_
    rw [Word.modulus_of_le h, ← Option.some.inj hn]
    exact hr
  · intro pred
    exact Checked.predicate_eq pred _ _
  · intro v hv
    obtain ⟨rfl, hquot⟩ := BinOp.toInt_sdiv ((hvec _).symm.trans hv)
    exact ⟨(hsigned _).trans (congrArg some hquot), hquot ▸ Word.holds_toInt h _⟩
  · intro v hv
    obtain ⟨-, rfl⟩ := BinOp.eq_of_divideSignedVec ((hvec _).symm.trans hv)
    have hrem := BitVec.toInt_srem x y
    exact ⟨(hsigned _).trans (congrArg some hrem), hrem ▸ Word.holds_toInt h _⟩

/-- In seven bits, `-64` divided by `-3` is `21`, with the remainder `-1`. -/
theorem sevenBits_eval_eq_onVec :
    BinOp.sdiv.eval 7 (some 64) (some 125) = .ok (.num 7 21) ∧
    BinOp.srem.eval 7 (some 64) (some 125) = .ok (.num 7 127) ∧
    (∀ op : BinOp, op.eval 7 (some 64) (some 125) = op.onVec 64#7 125#7) ∧
    (∀ pred : Pred, pred.eval 7 (some 64) (some 125) = .ofBool (pred.onVec 64#7 125#7)) := by
  have hvec := eval_eq_onVec_and_defined (w := 7) (l := 64) (r := 125) (by decide) (by decide) (by decide)
    (by decide)
  exact ⟨by decide, by decide, hvec.1, hvec.2.1⟩

-- the only nonzero divisor of one bit is `-1`, and the least integer is `-1` as well
example : BinOp.sdiv.eval 1 (some 1) (some 1) = Exec.wrong .divisionOverflow := by decide

end PointerSemantics
