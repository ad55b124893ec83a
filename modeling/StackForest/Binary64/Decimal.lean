import StackForest.Binary64.Basic
import StackForest.Text.Digit

/-!
# Decimal numbers and their binary64 values

A decimal is a sign, a whole number of digits and a power of ten. It is read from ASCII text such
as `-12.5e3`; `Binary64.ofDecimal` rounds it exactly.
-/

namespace StackForest

structure Decimal where
  negative : Bool
  digits : Nat
  exponent : Int
  deriving DecidableEq, Repr

namespace Decimal

def isAsciiDigit (c : Char) : Bool :=
  0x30 ≤ c.toNat && c.toNat ≤ 0x39

def ofAscii (cs : List Char) : Nat :=
  Text.ofDigits (cs.map fun c => c.toNat - 0x30)

/-- An optional sign in front of a text; `true` for a minus. -/
def splitSign : List Char → Bool × List Char
  | '-' :: r => (true, r)
  | '+' :: r => (false, r)
  | r => (false, r)

/-- The exponent of a power of ten that ends a decimal: nothing at all, or `e` and digits. -/
def exponent? : List Char → Option Int
  | [] => some 0
  | e :: r =>
    let (minus, ds) := splitSign r
    if (e = 'e' ∨ e = 'E') ∧ ds ≠ [] ∧ ds.all isAsciiDigit then
      some (if minus then -(ofAscii ds : Int) else ofAscii ds)
    else none

/-- Reads an unsigned decimal: digits with at most one point among, before or behind them, then an
optional power of ten. -/
def readUnsigned? (negative : Bool) (cs : List Char) : Option Decimal :=
  let whole := cs.takeWhile isAsciiDigit
  let behind := cs.dropWhile isAsciiDigit
  let (fraction, rest) := match behind with
    | '.' :: r => (r.takeWhile isAsciiDigit, r.dropWhile isAsciiDigit)
    | r => ([], r)
  if whole = [] ∧ fraction = [] then none
  else (exponent? rest).map fun e =>
    ⟨negative, ofAscii (whole ++ fraction), e - fraction.length⟩

def read? (cs : List Char) : Option Decimal :=
  let (minus, r) := splitSign cs
  readUnsigned? minus r

end Decimal

namespace Binary64

/-- The number nearest to a decimal. Powers of ten that are certainly past the finite numbers, or
certainly below half of the least positive one, are decided without computing them. -/
def ofDecimal (d : Decimal) : Binary64 :=
  if d.digits = 0 then ofRank d.negative 0
  else if 400 < d.exponent then infinite d.negative
  else if d.exponent + d.digits.log2 + 400 < 0 then ofRank d.negative 0
  else match d.exponent with
    | .ofNat n => ofRatio d.negative (d.digits * Nat.pow 10 n) 1
    | .negSucc n => ofRatio d.negative d.digits (Nat.pow 10 (n + 1))

end Binary64
end StackForest
