import Mathlib.Algebra.Group.Nat.Defs
import PointerSemantics.Evaluation
import PointerSemantics.Proofs.Codec
import PointerSemantics.Proofs.Exec

/-!
# Computing with words

The semantics computes with numbers of any size. A `Checked` computation does the same with words of 64
bits and the operations there are for them: a sum that is no word, a difference below zero, a division by
zero, a shift by 64 bits or more, and a place beyond the end of a list have no result, and the computation
ends with `Trap.undefined`. Where the sum or difference may wrap around, it is taken modulo `Word.count`.

`Checked.lift` is what the semantics does, without anything undefined. Each function here comes with an
equation that says under which conditions it does what the semantics does.
-/

namespace PointerSemantics

/-- Why a computation with words ends early. -/
inductive Trap where
  | halt (h : Halt)
  /-- An operation has no result -/
  | undefined

/-- A computation with words. -/
abbrev Checked := Except Trap

namespace Checked

variable {α β : Type}

/-- A computation in which every operation has a result. -/
def lift (x : Exec α) : Checked α := x.mapError Trap.halt

@[simp] theorem lift_ok (a : α) : lift (.ok a) = .ok a := rfl

@[simp] theorem lift_error (h : Halt) : lift (.error h : Exec α) = .error (.halt h) := rfl

@[simp] theorem pure_eq_ok (a : α) : (pure a : Checked α) = .ok a := rfl

@[simp] theorem ok_bind (a : α) (f : α → Checked β) : ((.ok a : Checked α) >>= f) = f a := rfl

@[simp] theorem error_bind (t : Trap) (f : α → Checked β) :
    ((.error t : Checked α) >>= f) = .error t := rfl

theorem lift_map (x : Exec α) (f : α → β) : lift (x.map f) = (lift x).map f := by
  cases x <;> rfl

theorem lift_ite (c : Prop) [Decidable c] (x y : Exec α) :
    lift (if c then x else y) = if c then lift x else lift y := apply_ite lift c x y

/-- Computations agree if they go on alike. -/
theorem bind_congr {x : Exec α} {f : α → Exec β} {g : α → Checked β}
    (h : ∀ a, x = .ok a → g a = lift (f a)) : lift x >>= g = lift (x >>= f) := by
  cases x with
  | error e => rfl
  | ok a => exact h a rfl

theorem mapM_congr {f : α → Exec β} {g : α → Checked β} {as : List α} (h : ∀ a ∈ as, g a = lift (f a)) :
    as.mapM g = lift (as.mapM f) := by
  induction as with
  | nil => rfl
  | cons a as ih =>
    obtain ⟨ha, has⟩ := List.forall_mem_cons.1 h
    rw [List.mapM_cons, List.mapM_cons, ha, ih has]
    exact bind_congr fun b _ => bind_congr fun bs _ => rfl

/-! ## Operations -/

/-- A result that there is under a condition only. -/
def guarded (condition : Prop) [Decidable condition] (a : α) : Checked α :=
  if condition then .ok a else .error .undefined

def add (a b : Nat) : Checked Nat := guarded (a + b < Word.count) (a + b)

def sub (a b : Nat) : Checked Nat := guarded (b ≤ a) (a - b)

def mul (a b : Nat) : Checked Nat := guarded (a * b < Word.count) (a * b)

def div (a b : Nat) : Checked Nat := guarded (b ≠ 0) (a / b)

def mod (a b : Nat) : Checked Nat := guarded (b ≠ 0) (a % b)

/-- Bits shifted out are lost. -/
def shiftLeft (a s : Nat) : Checked Nat := guarded (s < 64) (a <<< s % Word.count)

def shiftRight (a s : Nat) : Checked Nat := guarded (s < 64) (a >>> s)

/-- A shift that keeps the sign. -/
def shiftRightSigned (i : Int) (s : Nat) : Checked Int := guarded (s < 64) (i >>> s)

/-- The quotient rounded towards zero. -/
def divSigned (i k : Int) : Checked Int := guarded (k ≠ 0) (i.tdiv k)

/-- The remainder with the sign of the dividend. -/
def modSigned (i k : Int) : Checked Int := guarded (k ≠ 0) (i.tmod k)

def index (as : List α) (i : Nat) : Checked α :=
  match as[i]? with
  | some a => .ok a
  | none => .error .undefined

/-- The elements from `start` up to `stop`. -/
def slice (as : List α) (start stop : Nat) : Checked (List α) :=
  guarded (start ≤ stop ∧ stop ≤ as.length) ((as.drop start).take (stop - start))

section Operations

variable {a b s : Nat} {i k : Int}

theorem guarded_eq {condition : Prop} [Decidable condition] {a : α} (h : condition) :
    guarded condition a = .ok a := if_pos h

theorem add_eq (h : a + b < Word.count) : add a b = .ok (a + b) := guarded_eq h

theorem sub_eq (h : b ≤ a) : sub a b = .ok (a - b) := guarded_eq h

theorem mul_eq (h : a * b < Word.count) : mul a b = .ok (a * b) := guarded_eq h

theorem div_eq (h : b ≠ 0) : div a b = .ok (a / b) := guarded_eq h

theorem mod_eq (h : b ≠ 0) : mod a b = .ok (a % b) := guarded_eq h

theorem shiftLeft_eq (h : s < 64) : shiftLeft a s = .ok (a <<< s % Word.count) := guarded_eq h

/-- A single bit that stays in the word. -/
theorem shiftLeft_one_eq (h : s < 64) : shiftLeft 1 s = .ok (2 ^ s) := by
  have hpow : 2 ^ s < Word.count := Nat.pow_lt_pow_right (by decide) h
  rw [shiftLeft_eq h, Nat.one_shiftLeft, Nat.mod_eq_of_lt hpow]

theorem shiftRight_eq (h : s < 64) : shiftRight a s = .ok (a >>> s) := guarded_eq h

theorem shiftRightSigned_eq (h : s < 64) : shiftRightSigned i s = .ok (i >>> s) := guarded_eq h

theorem divSigned_eq (h : k ≠ 0) : divSigned i k = .ok (i.tdiv k) := guarded_eq h

theorem modSigned_eq (h : k ≠ 0) : modSigned i k = .ok (i.tmod k) := guarded_eq h

theorem slice_eq {as : List α} {start stop : Nat} (h : start ≤ stop) (h' : stop ≤ as.length) :
    slice as start stop = .ok ((as.drop start).take (stop - start)) := guarded_eq ⟨h, h'⟩

end Operations

/-! ## Numbers of a width -/

/-- All ones in `width` bits. -/
def mask (width : Nat) : Checked Nat :=
  if 64 ≤ width then .ok Word.max
  else do sub (← shiftLeft 1 width) 1

/-- The low `width` bits. -/
def truncate (width bits : Nat) : Checked Nat := do return bits &&& (← mask width)

/-- A word read as a signed number. -/
def asSigned (bits : Nat) : Int := Int.bmod bits Word.count

/-- A signed number as a word. -/
def asWord (i : Int) : Nat := (i % (Word.count : Int)).toNat

/-- The low `width` bits read as a signed number: shifted up so that the sign is on top, and down again. -/
def signed (width bits : Nat) : Checked Int :=
  if width = 0 then .ok 0
  else if 64 ≤ width then .ok (asSigned bits)
  else do
    let shift ← sub 64 width
    shiftRightSigned (asSigned (← shiftLeft bits shift)) shift

/-- The integer of the low `width` bits. -/
def num (width bits : Nat) : Checked Value := do return .num width (← truncate width bits)

/-- Bytes of a type. -/
def size (ty : Ty) : Checked Nat := do div (← add ty.bitwidth 7) 8

section Numbers

variable {width bits : Nat}

theorem modulus_of_le (h : 64 ≤ width) : Word.modulus width = Word.count := by
  unfold Word.modulus
  rw [Nat.min_eq_right h]
  rfl

theorem modulus_dvd_count (width : Nat) : Word.modulus width ∣ Word.count :=
  Nat.pow_dvd_pow 2 (Nat.min_le_right _ _)

theorem modulus_le_count (width : Nat) : Word.modulus width ≤ Word.count :=
  Nat.pow_le_pow_right (by decide) (Nat.min_le_right _ _)

theorem mask_eq (width : Nat) : mask width = .ok (Word.mask width) := by
  unfold mask Word.mask
  rcases Nat.lt_or_ge width 64 with hlt | hge
  · rw [if_neg (by omega), shiftLeft_one_eq hlt, Word.modulus_of_le (Nat.le_of_lt hlt)]
    exact sub_eq (Nat.two_pow_pos width)
  · rw [if_pos hge, modulus_of_le hge]
    rfl

theorem truncate_eq (width bits : Nat) : truncate width bits = .ok (Word.truncate width bits) := by
  unfold truncate
  rw [mask_eq]
  exact congrArg Except.ok (Nat.and_two_pow_sub_one_eq_mod bits (min width 64))

theorem num_eq (width bits : Nat) : num width bits = .ok (.ofBits width bits) := by
  unfold num
  rw [truncate_eq]
  rfl

theorem num_toNat (b : Bool) : num 1 b.toNat = .ok (.ofBool b) := by
  rw [num_eq]
  cases b <;> rfl

/-- Of a number only its lowest 64 bits count. -/
theorem ofBits_mod (width bits : Nat) : Value.ofBits width (bits % Word.count) = .ofBits width bits :=
  congrArg (Value.num width) (Nat.mod_mod_of_dvd bits (modulus_dvd_count width))

theorem ofBits_asWord (width : Nat) (i : Int) : Value.ofBits width (asWord i) = .ofInt width i := by
  refine congrArg (Value.num width) ?_
  have hcount : (0 : Int) < Word.count := by decide
  have hdvd : (Word.modulus width : Int) ∣ Word.count := Int.natCast_dvd_natCast.2 (modulus_dvd_count width)
  have hmodulus : (0 : Int) < Word.modulus width := Int.natCast_pos.2 (Word.modulus_pos width)
  have hcast : ((asWord i % Word.modulus width : Nat) : Int) = i % Word.modulus width := by
    rw [Int.natCast_emod, asWord, Int.toNat_of_nonneg (Int.emod_nonneg _ (by omega)),
      Int.emod_emod_of_dvd _ hdvd]
  unfold Word.truncate Word.ofInt
  rw [← hcast, Int.toNat_natCast]

/-- Scaling a number and its modulus scales the signed residue. -/
theorem bmod_mul (n : Int) {half scale : Nat} (hscale : 0 < scale) :
    Int.bmod (n * scale) (2 * half * scale) = Int.bmod n (2 * half) * scale := by
  have hpos : (0 : Int) < scale := Int.natCast_pos.2 hscale
  have hmod : n * scale % ((2 * half * scale : Nat) : Int) = n % ((2 * half : Nat) : Int) * scale := by
    rw [Int.natCast_mul, Int.mul_comm n, Int.mul_comm _ (scale : Int), Int.mul_emod_mul_of_pos _ _ hpos,
      Int.mul_comm]
  have hhalf : (((2 * half : Nat) : Int) + 1) / 2 = half := by omega
  have hhalf' : (((2 * half * scale : Nat) : Int) + 1) / 2 = half * scale := by
    rw [Nat.mul_assoc, ← Int.natCast_mul]
    omega
  unfold Int.bmod
  dsimp only
  rw [hmod, hhalf, hhalf']
  by_cases hlt : n % ((2 * half : Nat) : Int) < half
  · rw [if_pos hlt, if_pos (Int.mul_lt_mul_of_pos_right hlt hpos)]
  · have hle := Int.mul_le_mul_of_nonneg_right (Int.not_lt.1 hlt) (Int.le_of_lt hpos)
    rw [if_neg hlt, if_neg (Int.not_lt.2 hle), Int.sub_mul, ← Int.natCast_mul (2 * half)]

theorem signed_eq (width bits : Nat) : signed width bits = .ok (Word.signed width bits) := by
  unfold signed Word.signed
  by_cases hzero : width = 0
  · rw [if_pos hzero, hzero]
    exact congrArg Except.ok (Int.bmod_one _).symm
  rw [if_neg hzero]
  rcases Nat.lt_or_ge width 64 with hlt | hge
  · -- the number and its modulus are scaled to the full width, and scaled back
    have hshift : 64 - width < 64 := by omega
    have hscale : 0 < 2 ^ (64 - width) := Nat.two_pow_pos _
    have hcount : Word.count = 2 * 2 ^ (width - 1) * 2 ^ (64 - width) := by
      rw [← Nat.pow_succ', ← Nat.pow_add]
      show 2 ^ 64 = _
      congr 1
      omega
    have hmodulus : Word.modulus width = 2 * 2 ^ (width - 1) := by
      rw [Word.modulus_of_le (Nat.le_of_lt hlt), ← Nat.pow_succ']
      congr 1
      omega
    have hscaled : asSigned (bits <<< (64 - width) % Word.count) =
        Int.bmod bits (Word.modulus width) * (2 ^ (64 - width) : Nat) := by
      unfold asSigned
      rw [Int.natCast_emod, Int.emod_bmod, Nat.shiftLeft_eq, Int.natCast_mul, hcount, hmodulus]
      exact bmod_mul _ hscale
    rw [if_neg (by omega), sub_eq (by omega)]
    simp only [ok_bind]
    rw [shiftLeft_eq hshift]
    simp only [ok_bind]
    rw [shiftRightSigned_eq hshift, hscaled, Int.shiftRight_eq_div_pow]
    exact congrArg Except.ok (Int.mul_ediv_cancel _ (by omega))
  · rw [if_pos hge, modulus_of_le hge]
    rfl

theorem size_eq {ty : Ty} (h : ty.bitwidth + 7 < Word.count) : size ty = .ok ty.size := by
  unfold size
  rw [add_eq h]
  exact div_eq (Nat.succ_ne_zero 7)

end Numbers

end Checked

end PointerSemantics
