/-!
# Fixed-width numbers

Numbers are natural numbers; where the machine has words of bounded width, the functions here say
how. Addresses, sizes and ticks are 64-bit words, registers hold integers of any width up to 64.

A width above 64 counts as 64: a number never has more bits than a word.
-/

namespace PointerSemantics

namespace Word

/-- The number of 64-bit words. -/
def count : Nat := Nat.pow 2 64

/-- The largest 64-bit word. -/
def max : Nat := count - 1

/-- The sum of two words, or the largest word where the sum is none. -/
def saturatingAdd (a b : Nat) : Nat := min (a + b) max

/-- The numbers of `width` bits. -/
def modulus (width : Nat) : Nat := Nat.pow 2 (min width 64)

/-- All ones in `width` bits. -/
def mask (width : Nat) : Nat := modulus width - 1

/-- The low `width` bits. -/
def truncate (width bits : Nat) : Nat := bits % modulus width

/-- The low `width` bits read as a two's complement number. -/
def signed (width bits : Nat) : Int := Int.bmod bits (modulus width)

/-- The `width` bits of a two's complement number. -/
def ofInt (width : Nat) (i : Int) : Nat := (i % (modulus width : Int)).toNat

def isPowerOfTwo (n : Nat) : Bool := n == Nat.pow 2 n.log2

theorem modulus_pos (width : Nat) : 0 < modulus width := Nat.two_pow_pos _

theorem truncate_lt (width bits : Nat) : truncate width bits < modulus width :=
  Nat.mod_lt _ (modulus_pos width)

theorem ofInt_lt (width : Nat) (i : Int) : ofInt width i < modulus width := by
  have h := modulus_pos width
  have h1 := Int.emod_nonneg i (b := (modulus width : Int)) (by omega)
  have h2 := Int.emod_lt_of_pos i (b := (modulus width : Int)) (by omega)
  unfold ofInt
  omega

theorem truncate_of_lt {width bits : Nat} (h : bits < modulus width) : truncate width bits = bits :=
  Nat.mod_eq_of_lt h

/-- Reading bits as a signed number and writing that number again leaves the low bits. -/
theorem ofInt_signed (width bits : Nat) : ofInt width (signed width bits) = truncate width bits := by
  unfold ofInt signed truncate
  rw [Int.bmod_emod]
  omega

end Word

end PointerSemantics
