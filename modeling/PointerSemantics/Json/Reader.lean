import PointerSemantics.Json

/-!
# Reading JSON text

A text is cut into tokens, one character after the other, and the tokens are put together with a
stack of the arrays and objects that are still open. Both passes are folds over their input, so
nothing has to be said about why they stop.

Strict JSON is read: no comments, no trailing commas, no text behind the value, and blank space is
only space, tab and the two line ends.
-/

namespace PointerSemantics

namespace Json

inductive Token where
  | openBrace | closeBrace | openBracket | closeBracket | comma | colon
  /-- A string; `none` if it escapes half of a surrogate pair -/
  | text (s : Option String)
  | scalar (j : Json)

/-! ## Tokens -/

def digit? (c : Char) : Option Nat := if c.isDigit then some (c.toNat - '0'.toNat) else none

def hexDigit? (c : Char) : Option Nat :=
  if c.isDigit then some (c.toNat - '0'.toNat)
  else if 'a' ≤ c ∧ c ≤ 'f' then some (c.toNat - 'a'.toNat + 10)
  else if 'A' ≤ c ∧ c ≤ 'F' then some (c.toNat - 'A'.toNat + 10)
  else none

def decimalValue (ds : List Char) : Nat := ds.foldl (fun n c => 10 * n + (c.toNat - '0'.toNat)) 0

/-- At least one digit, and no zero before another digit. -/
def isWhole : List Char → Bool
  | [] => false
  | ['0'] => true
  | c :: rest => c != '0' && (c :: rest).all Char.isDigit

/-- An exponent behind its letter. -/
def isExponent : List Char → Bool
  | '+' :: ds | '-' :: ds => !ds.isEmpty && ds.all Char.isDigit
  | ds => !ds.isEmpty && ds.all Char.isDigit

/-- What may follow the whole part of a number: a fraction, an exponent, or both. -/
def isFractionExponent (cs : List Char) : Bool :=
  match cs with
  | '.' :: rest =>
    let tail := rest.dropWhile Char.isDigit
    !(rest.takeWhile Char.isDigit).isEmpty &&
      match tail with
      | [] => true
      | e :: ds => (e == 'e' || e == 'E') && isExponent ds
  | e :: ds => (e == 'e' || e == 'E') && isExponent ds
  | [] => false

/-- The value of a number literal. Minus zero is no integer. -/
def number? (cs : List Char) : Option Json :=
  let negative := cs.head? == some '-'
  let body := if negative then cs.tail else cs
  let whole := body.takeWhile Char.isDigit
  let rest := body.dropWhile Char.isDigit
  if !isWhole whole then none
  else if rest.isEmpty then
    let n := decimalValue whole
    if negative then if n = 0 then some unreadable else some (int (-n))
    else some (int n)
  else if isFractionExponent rest then some unreadable
  else none

/-- A number or one of the three words. -/
def scalar? (cs : List Char) : Option Json :=
  if cs = "null".toList then some null
  else if cs = "true".toList then some (bool true)
  else if cs = "false".toList then some (bool false)
  else number? cs

def isScalarChar (c : Char) : Bool := c.isAlphanum || c == '-' || c == '+' || c == '.'

def isHighSurrogate (u : Nat) : Bool := 0xD800 ≤ u && u < 0xDC00

def isLowSurrogate (u : Nat) : Bool := 0xDC00 ≤ u && u < 0xE000

/-- Joins surrogate pairs; a surrogate without its partner has no character. -/
def joinSurrogates? : List Nat → Option (List Char)
  | [] => some []
  | u :: v :: rest =>
    if isHighSurrogate u && isLowSurrogate v then
      (joinSurrogates? rest).map (Char.ofNat (0x10000 + (u - 0xD800) * 0x400 + (v - 0xDC00)) :: ·)
    else if isHighSurrogate u || isLowSurrogate u then none
    else (joinSurrogates? (v :: rest)).map (Char.ofNat u :: ·)
  | [u] => if isHighSurrogate u || isLowSurrogate u then none else some [Char.ofNat u]

/-- Where in a token the text stands; what was read of the token is kept last first. -/
inductive LexMode where
  | between
  | scalar (cs : List Char)
  | string (units : List Nat)
  | escape (units : List Nat)
  | hex (units : List Nat) (value missing : Nat)

structure LexState where
  mode : LexMode
  /-- Finished tokens, last first -/
  tokens : List Token

namespace LexState

def start : LexState := ⟨.between, []⟩

def push (st : LexState) (t : Token) : LexState := ⟨.between, t :: st.tokens⟩

/-- A character outside all strings and scalars. -/
def between (st : LexState) (c : Char) : Option LexState :=
  if c = ' ' ∨ c = '\t' ∨ c = '\n' ∨ c = '\x0d' then some st
  else if c = '"' then some { st with mode := .string [] }
  else if c = '\x7b' then some (st.push .openBrace)
  else if c = '\x7d' then some (st.push .closeBrace)
  else if c = '[' then some (st.push .openBracket)
  else if c = ']' then some (st.push .closeBracket)
  else if c = ',' then some (st.push .comma)
  else if c = ':' then some (st.push .colon)
  else if isScalarChar c then some { st with mode := .scalar [c] }
  else none

/-- Ends a scalar that is under way. -/
def settle (st : LexState) : Option LexState :=
  match st.mode with
  | .scalar cs => (scalar? cs.reverse).map fun j => st.push (.scalar j)
  | .between => some st
  | _ => none

/-- What a character behind a backslash stands for, `u` apart. -/
def simpleEscape? (c : Char) : Option Char :=
  if c = '"' ∨ c = '\\' ∨ c = '/' then some c
  else if c = 'b' then some '\x08'
  else if c = 'f' then some '\x0c'
  else if c = 'n' then some '\n'
  else if c = 'r' then some '\x0d'
  else if c = 't' then some '\t'
  else none

def next (st : LexState) (c : Char) : Option LexState :=
  match st.mode with
  | .between => st.between c
  | .scalar cs =>
    if isScalarChar c then some { st with mode := .scalar (c :: cs) }
    else st.settle.bind (·.between c)
  | .string units =>
    if c = '"' then some (st.push (.text ((joinSurrogates? units.reverse).map String.ofList)))
    else if c = '\\' then some { st with mode := .escape units }
    else if c.toNat < 0x20 then none
    else some { st with mode := .string (c.toNat :: units) }
  | .escape units =>
    if c = 'u' then some { st with mode := .hex units 0 4 }
    else (simpleEscape? c).map fun e => { st with mode := .string (e.toNat :: units) }
  | .hex units value missing =>
    (hexDigit? c).map fun d =>
      let value := 16 * value + d
      if missing ≤ 1 then { st with mode := .string (value :: units) }
      else { st with mode := .hex units value (missing - 1) }

end LexState

def tokens? (s : String) : Option (List Token) :=
  (s.toList.foldlM LexState.next .start).bind fun st => st.settle.map (·.tokens.reverse)

/-! ## Values -/

/-- An array or object whose end has not come; its parts are kept last first. -/
inductive Open where
  | array (items : List Json)
  | object (fields : List (Option String × Json))
  /-- An object with a member whose value has not come -/
  | member (fields : List (Option String × Json)) (name : Option String)

/-- What may come next. -/
inductive Expected where
  | value
  | valueOrEnd
  | separator
  | name
  | nameOrEnd
  | colon
  | nothing

structure BuildState where
  expected : Expected
  stack : List Open
  result : Json

namespace BuildState

def start : BuildState := ⟨.value, [], .null⟩

/-- Puts a finished value where it belongs. -/
def deliver (j : Json) : List Open → Option BuildState
  | [] => some ⟨.nothing, [], j⟩
  | .array items :: rest => some ⟨.separator, .array (j :: items) :: rest, .null⟩
  | .member fields name :: rest => some ⟨.separator, .object ((name, j) :: fields) :: rest, .null⟩
  | .object _ :: _ => none

/-- The finished object, readable if all its names are. -/
def object (fields : List (Option String × Json)) : Json :=
  match fields.mapM fun (name, j) => name.map fun n => (n, j) with
  | some fields => .obj fields
  | none => .unreadable

/-- The first token of a value. -/
def openValue (st : BuildState) : Token → Option BuildState
  | .openBrace => some { st with expected := .nameOrEnd, stack := .object [] :: st.stack }
  | .openBracket => some { st with expected := .valueOrEnd, stack := .array [] :: st.stack }
  | .scalar j => deliver j st.stack
  | .text (some s) => deliver (.str s) st.stack
  | .text none => deliver .unreadable st.stack
  | _ => none

/-- The name of a member. -/
def openMember (st : BuildState) : Token → Option BuildState
  | .text name =>
    match st.stack with
    | .object fields :: rest => some { st with expected := .colon, stack := .member fields name :: rest }
    | _ => none
  | _ => none

def closeTop (st : BuildState) : Token → Option BuildState
  | .closeBrace =>
    match st.stack with
    | .object fields :: rest => deliver (object fields.reverse) rest
    | _ => none
  | .closeBracket =>
    match st.stack with
    | .array items :: rest => deliver (.arr items.reverse) rest
    | _ => none
  | _ => none

def next (st : BuildState) (t : Token) : Option BuildState :=
  match st.expected, t with
  | .value, t => st.openValue t
  | .valueOrEnd, .closeBracket => st.closeTop .closeBracket
  | .valueOrEnd, t => st.openValue t
  | .separator, .comma =>
    match st.stack with
    | .array _ :: _ => some { st with expected := .value }
    | .object _ :: _ => some { st with expected := .name }
    | _ => none
  | .separator, t => st.closeTop t
  | .name, t => st.openMember t
  | .nameOrEnd, .closeBrace => st.closeTop .closeBrace
  | .nameOrEnd, t => st.openMember t
  | .colon, .colon => some { st with expected := .value }
  | .colon, _ => none
  | .nothing, _ => none

end BuildState

/-- The value of a text, names in an object kept as often as they are written. -/
def parse? (s : String) : Option Json := do
  let ts ← tokens? s
  let st ← ts.foldlM BuildState.next .start
  match st.expected with
  | .nothing => some st.result
  | _ => none

/-- The value of a text, the last of several members with one name standing for all. -/
def read? (s : String) : Option Json := (parse? s).map settled

end Json

end PointerSemantics
