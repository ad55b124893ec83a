import StackForest.Value
import StackForest.Text.Hex

/-!
# Writing JSON

The text of a value in ASCII, on one line or indented. Numbers keep the form that tells integers
and binary64 numbers apart; infinities and NaN have names.
-/

namespace StackForest.Json

/-- How items are set apart: all on one line, or each on a line of its own behind one `unit` per
level. -/
inductive Layout where
  | line
  | indented (unit : List Char)

namespace Layout

def isIndented : Layout → Bool
  | line => false
  | indented _ => true

/-- An indentation by `n` spaces; a negative one counts as zero. -/
def spaces (n : Int) : Layout := indented (List.replicate n.toNat ' ')

/-- What stands in front of the first item of a level, and behind the last of the level below. -/
def edge (depth : Nat) : Layout → List Char
  | line => []
  | indented unit => '\n' :: (List.replicate depth unit).flatten

def gap (depth : Nat) : Layout → List Char
  | line => [' ']
  | indented unit => '\n' :: (List.replicate depth unit).flatten

end Layout

/-! ## Strings -/

def unicodeEscape (n : Nat) : List Char :=
  '\\' :: 'u' :: Text.hex 4 n

/-- A character inside a string. Beyond U+FFFF it is a pair of surrogates. -/
def escape (c : Char) : List Char :=
  let n := c.toNat
  if c = '"' ∨ c = '\\' then ['\\', c]
  else if c = '\n' then ['\\', 'n']
  else if c = '\r' then ['\\', 'r']
  else if c = '\t' then ['\\', 't']
  else if c = '\x08' then ['\\', 'b']
  else if c = '\x0c' then ['\\', 'f']
  else if 0x20 ≤ n ∧ n < 0x7F then [c]
  else if n < 0x10000 then unicodeEscape n
  else unicodeEscape (0xD800 + (n - 0x10000) / 0x400) ++ unicodeEscape (0xDC00 + n % 0x400)

def quote (s : String) : List Char :=
  '"' :: s.toList.flatMap escape ++ ['"']

/-! ## Values -/

def writeNumber : Number → List Char
  | .real (.infinite negative) => if negative then "-Infinity".toList else "Infinity".toList
  | .real .nan => "NaN".toList
  | n => n.render

mutual

def write (l : Layout) (depth : Nat) : Value → List Char
  | .null => "null".toList
  | .bool b => if b then "true".toList else "false".toList
  | .number n => writeNumber n
  | .text s => quote s
  | .list [] => ['[', ']']
  | .list (v :: vs) =>
    '[' :: l.edge (depth + 1) ++ write l (depth + 1) v ++ writeItems l (depth + 1) vs
      ++ l.edge depth ++ [']']
  | .dict [] => ['\x7b', '\x7d']
  | .dict ((key, v) :: fields) =>
    '\x7b' :: l.edge (depth + 1) ++ quote key ++ ':' :: ' ' :: write l (depth + 1) v
      ++ writeFields l (depth + 1) fields ++ l.edge depth ++ ['\x7d']

/-- The items behind the first one, each behind its comma. -/
def writeItems (l : Layout) (depth : Nat) : List Value → List Char
  | [] => []
  | v :: vs => ',' :: l.gap depth ++ write l depth v ++ writeItems l depth vs

def writeFields (l : Layout) (depth : Nat) : List (String × Value) → List Char
  | [] => []
  | (key, v) :: fields =>
    ',' :: l.gap depth ++ quote key ++ ':' :: ' ' :: write l depth v ++ writeFields l depth fields

end

def render (l : Layout) (v : Value) : List Char :=
  write l 0 v

/-- The text of a value, if there is room to write it. -/
def render? (room : Room) (l : Layout) (v : Value) : Except Overflow (List Char) :=
  if Room.fits room.writing v.nesting then .ok (render l v) else .error (.writing l.isIndented)

end StackForest.Json
