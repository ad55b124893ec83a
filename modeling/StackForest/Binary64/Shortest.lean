import StackForest.Binary64.Decimal

/-!
# The text of a binary64 number

A number is written with the fewest digits that read back as the number itself, and with the
nearest such digits. A decimal exponent from -4 to 15 is written positionally, with at least one
digit behind the point; any other gives a power of ten with a sign and at least two digits.
-/

namespace StackForest.Binary64

/-! ## Layout -/

def zeros (n : Nat) : List Char := List.replicate n '0'

/-- The text of `0.d₁d₂… · 10 ^ point`. -/
def layout (ds : List Char) (point : Int) : List Char :=
  if -4 < point ∧ point ≤ 16 then
    let whole := point.toNat
    if point ≤ 0 then '0' :: '.' :: zeros (-point).toNat ++ ds
    else if ds.length ≤ whole then ds ++ zeros (whole - ds.length) ++ ['.', '0']
    else ds.take whole ++ '.' :: ds.drop whole
  else
    let mantissa := match ds with
      | d :: r => if r = [] then [d] else d :: '.' :: r
      | [] => []
    let power := (point - 1).natAbs
    let digits := Nat.toDigits 10 power
    mantissa ++ 'e' :: (if point - 1 < 0 then '-' else '+') :: zeros (2 - digits.length) ++ digits

/-- The text of `digits · 10 ^ exponent`, without the zeros that end `digits`. -/
def decimalText (digits : Nat) (exponent : Int) : List Char :=
  let all := Nat.toDigits 10 digits
  let significant := (all.reverse.dropWhile (· == '0')).reverse
  layout significant (all.length + exponent)

/-! ## The choice of digits -/

/-- The exponent of the first decimal digit of `num / den`, which is positive. -/
def leadingExponent (num den : Nat) : Int :=
  if den ≤ num then (Nat.toDigits 10 (num / den)).length - 1
  else
    let gap := (den - 1) / num
    if gap = 0 then 0 else -((Nat.toDigits 10 gap).length : Int)

/-- The multiples of `10 ^ exponent` next to `num / den`, the nearer first; of two that are as near
the even one. -/
def neighbours (num den : Nat) (exponent : Int) : List Nat :=
  let (num, den) := match exponent with
    | .ofNat n => (num, den * Nat.pow 10 n)
    | .negSucc n => (num * Nat.pow 10 (n + 1), den)
  let below := num / den
  let near := roundDiv num den
  if near = below then [below, below + 1] else [below + 1, below]

/-- The multiples to try for a positive number, coarsest grid first, up to 17 digits. -/
def candidates (num den : Nat) : List (Nat × Int) :=
  let first := leadingExponent num den
  (List.range 17).flatMap fun (n : Nat) =>
    (neighbours num den (first - n)).map fun digits => (digits, first - n)

def readsAs (rank : Nat) (cs : List Char) : Bool :=
  match Decimal.read? cs with
  | some d => ofDecimal d == ofRank false rank
  | none => false

/-- The text of a positive number. The exact expansion stands behind the candidates. -/
def positiveText (rank : Nat) : List Char :=
  let units := unitsOfRank rank
  let texts := (candidates units unitsPerOne).map fun c => decimalText c.1 c.2
  match texts.find? (readsAs rank) with
  | some cs => cs
  | none => decimalText (units * Nat.pow 5 1074) (-1074)

def render : Binary64 → List Char
  | finite negative rank =>
    let text := if rank.val = 0 then ['0', '.', '0'] else positiveText rank
    if negative then '-' :: text else text
  | infinite negative => if negative then ['-', 'i', 'n', 'f'] else ['i', 'n', 'f']
  | nan => ['n', 'a', 'n']

end StackForest.Binary64
