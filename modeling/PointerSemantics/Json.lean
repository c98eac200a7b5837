/-!
# JSON values

Programs, states and choices are exchanged as JSON. All numbers in these documents are integers, so
a number written with a fraction or an exponent is kept only as something that no form reads.

`Json.settled` removes repeated names from objects, the last member with a name staying.
-/

namespace PointerSemantics

inductive Json where
  | null
  | bool (b : Bool)
  | int (i : Int)
  | str (s : String)
  | arr (items : List Json)
  | obj (fields : List (String × Json))
  /-- A number that is not written as an integer, or a string with half a surrogate pair in it -/
  | unreadable
deriving Inhabited

namespace Json

def nat (n : Nat) : Json := int n

/-! ## Objects -/

/-- The value of the first member with a name. -/
def member? (name : String) : List (String × Json) → Option Json
  | [] => none
  | (n, v) :: rest => if n = name then some v else member? name rest

/-- The member of an object with a name. -/
def get? (j : Json) (name : String) : Option Json :=
  match j with
  | obj fields => member? name fields
  | _ => none

/-- Drops every member whose name comes again later. -/
def lastWins {α : Type} : List (String × α) → List (String × α)
  | [] => []
  | (n, v) :: rest => if rest.any (·.1 == n) then lastWins rest else (n, v) :: lastWins rest

mutual

/-- The value with no name twice in an object. -/
def settled : Json → Json
  | arr items => arr (settledItems items)
  | obj fields => obj (lastWins (settledFields fields))
  | null => null
  | bool b => bool b
  | int i => int i
  | str s => str s
  | unreadable => unreadable

def settledItems : List Json → List Json
  | [] => []
  | j :: rest => j.settled :: settledItems rest

def settledFields : List (String × Json) → List (String × Json)
  | [] => []
  | (n, j) :: rest => (n, j.settled) :: settledFields rest

end

/-! ## Text -/

/-- A character inside a quoted string. -/
def escaped (c : Char) : String :=
  if c = '"' then "\\\""
  else if c = '\\' then "\\\\"
  else if c.toNat < 0x20 then
    "\\u" ++ String.ofList (List.leftpad 4 '0' (Nat.toDigits 16 c.toNat))
  else c.toString

def quoted (s : String) : String := "\"" ++ s.foldl (fun t c => t ++ escaped c) "" ++ "\""

mutual

/-- The value without spaces between its parts. -/
def text : Json → String
  | null | unreadable => "null"
  | bool b => if b then "true" else "false"
  | int i => toString i
  | str s => quoted s
  | arr items => "[" ++ itemsText items ++ "]"
  | obj fields => "\x7b" ++ fieldsText fields ++ "\x7d"

def itemsText : List Json → String
  | [] => ""
  | [j] => j.text
  | j :: rest => j.text ++ "," ++ itemsText rest

def fieldsText : List (String × Json) → String
  | [] => ""
  | [(n, j)] => quoted n ++ ":" ++ j.text
  | (n, j) :: rest => quoted n ++ ":" ++ j.text ++ "," ++ fieldsText rest

end

end Json

end PointerSemantics
