/-!
# Binary64 numbers

A finite number is a sign and a rank: the numbers of one sign in ascending order, counted from
zero. Adding one to a rank crosses from one binade into the next without a special case, and the
first rank past the finite ones is where infinity begins.

Every finite number is a multiple of the least positive one, `2 ^ (-1074)`; `units` is that
multiple.
-/

namespace StackForest

/-- How many numbers a binade has: `2 ^ 52`. -/
abbrev binadeSize : Nat := 1 <<< 52

abbrev rankCount : Nat := 2047 * binadeSize

inductive Binary64 where
  | finite (negative : Bool) (rank : Fin rankCount)
  | infinite (negative : Bool)
  | nan
  deriving DecidableEq, Repr

namespace Binary64

/-- The units of the number of a rank: below the second binade a rank is its own multiple, and in
each later binade the step doubles. -/
def unitsOfRank (rank : Nat) : Nat :=
  let binade := rank / binadeSize
  let fraction := rank % binadeSize
  if binade = 0 then fraction else (binadeSize + fraction) <<< (binade - 1)

/-- The denominator of a unit: `2 ^ 1074`. -/
abbrev unitsPerOne : Nat := 1 <<< 1074

def units? : Binary64 → Option Int
  | finite negative rank =>
    some (if negative then -(unitsOfRank rank : Int) else unitsOfRank rank)
  | _ => none

/-- The number of a rank; a rank past the finite ones is infinite. -/
def ofRank (negative : Bool) (rank : Nat) : Binary64 :=
  if h : rank < rankCount then finite negative ⟨rank, h⟩ else infinite negative

/-- Numeric equality: the two zeros are one number, and no number is equal to NaN. -/
def equal : Binary64 → Binary64 → Bool
  | finite s m, finite t n => m == n && (s == t || m.val == 0)
  | infinite s, infinite t => s == t
  | _, _ => false

def equalInt (x : Binary64) (i : Int) : Bool :=
  x.units? == some (i * unitsPerOne)

/-! ## Rounding -/

/-- The integer nearest to `num / den`; a half goes to the even one. -/
def roundDiv (num den : Nat) : Nat :=
  let q := num / den
  let r := num % den
  if 2 * r < den then q
  else if den < 2 * r then q + 1
  else q + q % 2

/-- The rank of the number nearest to `num / den` units, a half going to the even rank. From the
second binade on, `k` halvings bring the value down to the 53 bits of a significand. -/
def rankOfUnits (num den : Nat) : Nat :=
  let k := (num / den).log2 - 52
  k * binadeSize + roundDiv num (den <<< k)

def ofRatio (negative : Bool) (num den : Nat) : Binary64 :=
  ofRank negative (rankOfUnits (num * unitsPerOne) den)

end Binary64
end StackForest
