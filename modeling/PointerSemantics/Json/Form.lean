import PointerSemantics.Json
import PointerSemantics.Table
import PointerSemantics.AddrSet

/-!
# Forms: how a type is written as JSON

A form is a writer and a reader for one type. Forms are built from the forms of the parts:

* a choice between constructors is an object with the constructor's name as its only member; a
  constructor without arguments is its bare name, or that object with `null`;
* a record is an object; when read it may lack members that may be absent, hold members that nobody
  asks for, or be the array of all its members in order;
* a table keyed by numbers is an object whose names are the keys in decimal.

A form is exact on a value when reading what was written gives the value back.
-/

namespace PointerSemantics

/-- A writer and a reader of JSON for one type. -/
structure Form (α : Type) where
  write : α → Json
  read : Json → Option α

namespace Form

variable {α β : Type}

/-- Reading what was written gives the value back. -/
def ExactOn (f : Form α) (a : α) : Prop := f.read (f.write a) = some a

/-! ## Scalars -/

/-- A natural number of at most `width` bits. -/
def word (width : Nat) : Form Nat where
  write := Json.nat
  read
    | .int i => if 0 ≤ i ∧ i.toNat < Nat.pow 2 width then some i.toNat else none
    | _ => none

def word32 : Form Nat := word 32

def word64 : Form Nat := word 64

def bool : Form Bool where
  write := .bool
  read
    | .bool b => some b
    | _ => none

def string : Form String where
  write := .str
  read
    | .str s => some s
    | _ => none

/-! ## Collections -/

/-- The value or `null`. -/
def option (f : Form α) : Form (Option α) where
  write
    | some a => f.write a
    | none => .null
  read
    | .null => some none
    | j => (f.read j).map some

def list (f : Form α) : Form (List α) where
  write as := .arr (as.map f.write)
  read
    | .arr items => items.mapM f.read
    | _ => none

def pair (f : Form α) (g : Form β) : Form (α × β) where
  write p := .arr [f.write p.1, g.write p.2]
  read
    | .arr [a, b] => do return (← f.read a, ← g.read b)
    | _ => none

/-- A set of addresses, written in increasing order and read in any. -/
def addrSet : Form AddrSet where
  write s := .arr (s.toList.map Json.nat)
  read j := (word64.list.read j).map AddrSet.ofList

/-- A number in decimal: digits only, and no zero in front of another digit. -/
def readDecimal (s : String) : Option Nat :=
  match s.toList with
  | [] => none
  | ['0'] => some 0
  | c :: cs =>
    if c != '0' && (c :: cs).all Char.isDigit then
      some ((c :: cs).foldl (fun n d => 10 * n + (d.toNat - '0'.toNat)) 0)
    else none

def readKey (width : Nat) (s : String) : Option Nat :=
  (readDecimal s).filter (· < Nat.pow 2 width)

/-- A table with keys of at most `width` bits. -/
def table (width : Nat) (f : Form α) : Form (Table α) where
  write t := .obj (t.entries.map fun (k, v) => (toString k, f.write v))
  read
    | .obj fields => do
      let entries ← fields.mapM fun (s, j) => do return (← readKey width s, ← f.read j)
      return Table.ofList entries
    | _ => none

/-! ## Constructors -/

/-- A constructor with an argument. -/
def tagged (name : String) (j : Json) : Json := .obj [(name, j)]

/-- The constructor a value names, with its argument. -/
def readTagged : Json → Option (String × Json)
  | .obj [(name, j)] => some (name, j)
  | _ => none

/-- The constructor without an argument that a value names. -/
def readName : Json → Option String
  | .str name => some name
  | .obj [(name, .null)] => some name
  | _ => none

/-- The value of the constructor that a document names: one without an argument, or one that reads its
argument. -/
def oneOf (units : List (String × α)) (arms : List (String × (Json → Option α))) (j : Json) :
    Option α :=
  match (readName j).bind (List.lookup · units) with
  | some a => some a
  | none => do
    let (name, k) ← readTagged j
    let arm ← arms.lookup name
    arm k

/-- Constructors without arguments, by their names. -/
def enumeration (all : List α) (name : α → String) : Form α where
  write a := .str (name a)
  read j := (readName j).bind fun s => all.find? fun a => name a == s

/-! ## Records -/

/-- The members of a record: of an object, or of the array of all members in order. -/
def readRecord (names : List String) : Json → Option (List (String × Json))
  | .obj fields => some fields
  | .arr items => if items.length = names.length then some (names.zip items) else none
  | _ => none

/-- The members of the argument of a constructor, which must be an object. -/
def readMembers : Json → Option (List (String × Json))
  | .obj fields => some fields
  | _ => none

/-- A member that must be there. -/
def need (f : Form α) (fields : List (String × Json)) (name : String) : Option α :=
  (Json.member? name fields).bind f.read

/-- A member that may be absent or `null`. -/
def may (f : Form α) (fields : List (String × Json)) (name : String) : Option (Option α) :=
  match Json.member? name fields with
  | some j => f.option.read j
  | none => some none

/-- A member with a value for its absence. -/
def needOr (f : Form α) (default : α) (fields : List (String × Json)) (name : String) : Option α :=
  match Json.member? name fields with
  | some j => f.read j
  | none => some default

end Form

end PointerSemantics
