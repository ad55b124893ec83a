import StackForest.Json.Lexeme

/-!
# Reading JSON

A machine over the lexemes of a text: what it expects next, and the containers that are open
around it. It stops at the first lexeme that does not fit.
-/

namespace StackForest.Json

inductive Fault where
  | mistake (m : Mistake)
  | number (fault : Number.Fault)
  | tooDeep (container : Container)
  /-- A string holds half of a surrogate pair. No text here has one, so what follows from such a
  string is left open. -/
  | unpaired
  deriving DecidableEq, Repr

/-- A container around the value that is being read. -/
inductive Open where
  /-- A list, its items newest first. -/
  | list (items : List Value)
  /-- A dictionary and the key whose value is being read. -/
  | dict (fields : List (String × Value)) (key : String)

inductive Expect where
  | value
  | firstItem
  | firstName
  | name (fields : List (String × Value))
  | colon (fields : List (String × Value)) (key : String)
  | afterItem (items : List Value)
  | afterField (fields : List (String × Value))
  | finished (v : Value)

structure Machine where
  expect : Expect
  outer : List Open

/-- The cause to report when nothing that is expected follows. -/
def Expect.cause : Expect → Cause
  | value | firstItem => .expectingValue
  | firstName | name _ => .expectingName
  | colon _ _ => .expectingColon
  | afterItem _ | afterField _ => .expectingComma
  | finished _ => .extraData

namespace Machine

def start : Machine := ⟨.value, []⟩

/-- A value is complete: it goes into the container around it. -/
def supply (v : Value) : List Open → Machine
  | [] => ⟨.finished v, []⟩
  | .list items :: outer => ⟨.afterItem (v :: items), outer⟩
  | .dict fields key :: outer => ⟨.afterField (Fields.put key v fields), outer⟩

/-- In place of a string with half of a surrogate pair stands null, or an empty name: such a text
is not read in the end. -/
def takeValue (outer : List Open) (offset : Nat) : Lexeme → Except Fault Machine
  | .scalar v => .ok (supply v outer)
  | .unpaired => .ok (supply .null outer)
  | .brokenString m => .error (.mistake m)
  | .brokenNumber f => .error (.number f)
  | .mark '[' => .ok ⟨.firstItem, outer⟩
  | .mark '\x7b' => .ok ⟨.firstName, outer⟩
  | _ => .error (.mistake ⟨.expectingValue, offset⟩)

def takeName (fields : List (String × Value)) (outer : List Open) (offset : Nat) :
    Lexeme → Except Fault Machine
  | .scalar (.text key) => .ok ⟨.colon fields key, outer⟩
  | .unpaired => .ok ⟨.colon fields "", outer⟩
  | .brokenString m => .error (.mistake m)
  | _ => .error (.mistake ⟨.expectingName, offset⟩)

def take (m : Machine) (lexeme : Lexeme × Nat) : Except Fault Machine :=
  match m.expect, lexeme with
  | .firstItem, (.mark ']', _) => .ok (supply (.list []) m.outer)
  | .firstItem, (l, offset) => takeValue (.list [] :: m.outer) offset l
  | .value, (l, offset) => takeValue m.outer offset l
  | .firstName, (.mark '\x7d', _) => .ok (supply (.dict []) m.outer)
  | .firstName, (l, offset) => takeName [] m.outer offset l
  | .name fields, (l, offset) => takeName fields m.outer offset l
  | .colon fields key, (.mark ':', _) => .ok ⟨.value, .dict fields key :: m.outer⟩
  | .afterItem items, (.mark ']', _) => .ok (supply (.list items.reverse) m.outer)
  | .afterItem items, (.mark ',', _) => .ok ⟨.value, .list items :: m.outer⟩
  | .afterField fields, (.mark '\x7d', _) => .ok (supply (.dict fields) m.outer)
  | .afterField fields, (.mark ',', _) => .ok ⟨.name fields, m.outer⟩
  | expect, (_, offset) => .error (.mistake ⟨expect.cause, offset⟩)

/-- The container that was opened last, if it stands inside too many others. -/
def tooDeep? (limit : Option Nat) (m : Machine) : Option Container :=
  match m.expect with
  | .firstItem => if Room.fits limit (m.outer.length + 1) then none else some .list
  | .firstName => if Room.fits limit (m.outer.length + 1) then none else some .dict
  | _ => none

def step (limit : Option Nat) (m : Machine) (lexeme : Lexeme × Nat) : Except Fault Machine := do
  let m ← m.take lexeme
  match m.tooDeep? limit with
  | some container => .error (.tooDeep container)
  | none => .ok m

def finish (m : Machine) (offset : Nat) : Except Fault Value :=
  match m.expect with
  | .finished v => .ok v
  | expect => .error (.mistake ⟨expect.cause, offset⟩)

end Machine

/-! ## Whole texts -/

/-- Reads one value that takes up a whole text, with so many containers inside one another at most.
A byte order mark in front is refused. -/
def read (cs : List Char) (limit : Option Nat := none) : Except Fault Value :=
  if cs.head? = some '\ufeff' then .error (.mistake ⟨.byteOrderMark, 0⟩)
  else do
    let ls := lexemes 0 cs
    let m ← ls.foldlM (Machine.step limit) Machine.start
    let v ← m.finish cs.length
    if ls.any (·.1.isUnpaired) then .error .unpaired else .ok v

/-! ## Messages -/

def Cause.message : Cause → String
  | byteOrderMark => "Unexpected UTF-8 BOM (decode using utf-8-sig)"
  | expectingValue => "Expecting value"
  | expectingName => "Expecting property name enclosed in double quotes"
  | expectingColon => "Expecting ':' delimiter"
  | expectingComma => "Expecting ',' delimiter"
  | extraData => "Extra data"
  | unterminatedString => "Unterminated string starting at"
  | controlCharacter => "Invalid control character at"
  | badEscape => "Invalid \\escape"
  | badUnicodeEscape => "Invalid \\uXXXX escape"

/-- What is wrong with the text `cs`, with the line, column and offset of the place. -/
def Mistake.message (m : Mistake) (cs : List Char) : String :=
  let place := Text.Position.start.after (cs.take m.offset)
  s!"{m.cause.message}: line {place.line} column {place.column} (char {m.offset})"

end StackForest.Json
