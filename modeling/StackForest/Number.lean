import StackForest.Binary64.Shortest
import StackForest.Text.Literal
import StackForest.Text.Space

/-!
# Numbers

A number is an integer of any size or a binary64 number; the two stay apart even when they are
equal. An integer text has an optional minus and digits of any script. Everything else is read as
a binary64 number.
-/

namespace StackForest

inductive Number where
  | int (i : Int)
  | real (x : Binary64)
  deriving DecidableEq, Repr

namespace Number

def intText (i : Int) : List Char :=
  if i < 0 then '-' :: Nat.toDigits 10 i.natAbs else Nat.toDigits 10 i.natAbs

def render : Number → List Char
  | int i => intText i
  | real x => x.render

/-- Equality of values: an integer equals a binary64 number only if it is that number exactly. -/
def equal : Number → Number → Bool
  | int i, int j => i == j
  | real x, real y => x.equal y
  | int i, real x => x.equalInt i
  | real x, int i => x.equalInt i

inductive Fault where
  | tooLong (digits : Nat)
  | noNumeral (text : List Char)
  deriving DecidableEq, Repr

/-- The most digits that an integer text may have. -/
def digitLimit : Nat := 4300

def Fault.message : Fault → String
  | tooLong digits =>
    s!"Exceeds the limit ({digitLimit} digits) for integer string conversion: "
      ++ s!"value has {digits} digits; use sys.set_int_max_str_digits() to increase the limit"
  | noNumeral text => "could not convert string to float: " ++ .ofList (Text.Literal.render text)

def ofDigits? (negative : Bool) (ds : List Nat) : Except Fault Number :=
  if ds.length ≤ digitLimit then
    .ok (.int (if negative then -(Text.ofDigits ds : Int) else Text.ofDigits ds))
  else .error (.tooLong ds.length)

/-- The digits of an integer text: an optional minus, then one or more digits of any script. -/
def integerDigits? (cs : List Char) : Option (Bool × List Nat) :=
  let (minus, ds) := match cs with
    | '-' :: r => (true, r)
    | r => (false, r)
  if ds ≠ [] ∧ ds.all Text.isDigit then some (minus, ds.filterMap Text.digitValue?) else none

/-! ## Binary64 numerals -/

def toAscii (c : Char) : Char :=
  if c.toNat < 0x80 then c
  else if Text.isSpace c then ' '
  else match Text.digitValue? c with
    | some d => Text.digitChar d
    | none => c

def trim (cs : List Char) : List Char :=
  ((cs.dropWhile Text.isPadding).reverse.dropWhile Text.isPadding).reverse

/-- Takes out underscores, each of which stands between two digits; `afterDigit` tells whether a
digit stands in front. -/
def dropUnderscores? (afterDigit : Bool) : List Char → Option (List Char)
  | [] => some []
  | '_' :: c :: r =>
    if afterDigit ∧ Decimal.isAsciiDigit c then (dropUnderscores? true r).map (c :: ·) else none
  | c :: r => if c = '_' then none else (dropUnderscores? (Decimal.isAsciiDigit c) r).map (c :: ·)

def ofName? (cs : List Char) : Option Binary64 :=
  let (minus, r) := Decimal.splitSign cs
  let name := r.map Char.toLower
  if name = "inf".toList ∨ name = "infinity".toList then some (.infinite minus)
  else if name = "nan".toList then some .nan
  else none

/-- The binary64 number that a text writes: white space around it, underscores between digits and
digits of any script are allowed. -/
def real? (cs : List Char) : Option Binary64 :=
  match dropUnderscores? false (trim (cs.map toAscii)) with
  | none => none
  | some plain => match ofName? plain with
    | some x => some x
    | none => (Decimal.read? plain).map Binary64.ofDecimal

def read (cs : List Char) : Except Fault Number :=
  match integerDigits? cs with
  | some (minus, ds) => ofDigits? minus ds
  | none => match real? cs with
    | some x => .ok (.real x)
    | none => .error (.noNumeral cs)

end Number
end StackForest
