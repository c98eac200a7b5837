import PointerSemantics.AddrSet

/-!
# Pointers with provenance

A logical pointer remembers the block it was derived from, a physical pointer is a bare address that
came from an integer. What a physical pointer may access is settled when it is used.
-/

namespace PointerSemantics

/-- The number of a block. Numbers are never used again, so a pointer to a freed block differs from
one to a later block at the same address. -/
abbrev BlockId := Nat

inductive Pointer where
  /-- A byte offset from the base of a block; accesses and in-bounds moves check it against the size -/
  | logical (block : BlockId) (offset : Nat)
  /-- An address, the addresses that in-bounds moves passed through, and the block it was attributed
  to when it was cast, if any -/
  | physical (addr : Nat) (visited : AddrSet) (owner : Option BlockId)
  | null
deriving DecidableEq, Inhabited

def BlockId.text (b : BlockId) : String := s!"#b{b}"

/-- A number in base sixteen, lower case, after `0x`. -/
def hexText (n : Nat) : String := "0x" ++ String.ofList (Nat.toDigits 16 n)

namespace Pointer

/-- A physical pointer that no in-bounds move has touched. -/
def ofAddress (addr : Nat) (owner : Option BlockId) : Pointer := physical addr .empty owner

def isNull : Pointer → Bool
  | null => true
  | _ => false

/-- The block a pointer was derived from or attributed to. -/
def block? : Pointer → Option BlockId
  | logical block _ => some block
  | physical _ _ owner => owner
  | null => none

def text : Pointer → String
  | logical block offset => s!"({BlockId.text block}, +{offset})"
  | physical addr _ (some owner) => s!"{hexText addr}@{BlockId.text owner}"
  | physical addr _ none => hexText addr
  | null => "null"

end Pointer

end PointerSemantics
