import StackForest.Fields
import StackForest.Number
import StackForest.Room

/-!
# Values

The data of records, labels and state files. The fields of a dictionary keep their order, and each
key occurs once.
-/

namespace StackForest

inductive Value where
  | null
  | bool (b : Bool)
  | number (n : Number)
  | text (s : String)
  | list (items : List Value)
  | dict (fields : List (String × Value))
  deriving Repr, Inhabited

namespace Value

def int (i : Int) : Value := .number (.int i)

def typeName : Value → String
  | null => "NoneType"
  | bool _ => "bool"
  | number (.int _) => "int"
  | number (.real _) => "float"
  | text _ => "str"
  | list _ => "list"
  | dict _ => "dict"

def isNull : Value → Bool
  | null => true
  | _ => false

/-- The number that a value counts as: a truth value is one or zero. -/
def asNumber? : Value → Option Number
  | bool b => some (.int (if b then 1 else 0))
  | number n => some n
  | _ => none

/-! ## Equality -/

mutual

/-- Equality of values: truth values and numbers compare as numbers, lists in order, dictionaries
by their keys. -/
def equal : Value → Value → Bool
  | null, null => true
  | text s, text t => s == t
  | list vs, list ws => equalItems vs ws
  | dict fs, dict gs => fs.length == gs.length && equalFields fs gs
  | v, w => match v.asNumber?, w.asNumber? with
    | some m, some n => m.equal n
    | _, _ => false

def equalItems : List Value → List Value → Bool
  | [], [] => true
  | v :: vs, w :: ws => equal v w && equalItems vs ws
  | _, _ => false

/-- Whether each field is also a field of `gs`, with an equal value. -/
def equalFields : List (String × Value) → List (String × Value) → Bool
  | [], _ => true
  | (key, v) :: fs, gs => (match Fields.get? key gs with
    | some w => equal v w
    | none => false) && equalFields fs gs

end

/-! ## Nesting -/

mutual

/-- How many lists and dictionaries are inside one another. -/
def nesting : Value → Nat
  | list vs => nestingItems vs + 1
  | dict fields => nestingFields fields + 1
  | _ => 0

def nestingItems : List Value → Nat
  | [] => 0
  | v :: vs => (nesting v).max (nestingItems vs)

def nestingFields : List (String × Value) → Nat
  | [] => 0
  | (_, v) :: fields => (nesting v).max (nestingFields fields)

end

mutual

/-- How many lists and dictionaries are inside one another where two values are compared. Items are
compared in order, up to the first two that differ. -/
def overlap : Value → Value → Nat
  | list vs, list ws => if vs.length = ws.length then overlapItems vs ws + 1 else 1
  | dict fs, dict gs => if fs.length = gs.length then overlapFields fs gs + 1 else 1
  | _, _ => 0

def overlapItems : List Value → List Value → Nat
  | v :: vs, w :: ws => (overlap v w).max (if v.equal w then overlapItems vs ws else 0)
  | _, _ => 0

def overlapFields : List (String × Value) → List (String × Value) → Nat
  | [], _ => 0
  | (key, v) :: fs, gs => match Fields.get? key gs with
    | some w => (overlap v w).max (if v.equal w then overlapFields fs gs else 0)
    | none => 0

end

def equal? (room : Room) (v w : Value) : Except Overflow Bool :=
  if Room.fits room.comparing (v.overlap w) then .ok (v.equal w) else .error .comparing

/-- The values that nothing can be looked up by: lists and dictionaries. -/
def isContainer : Value → Bool
  | list _ => true
  | dict _ => true
  | _ => false

end Value
end StackForest
