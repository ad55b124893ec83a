import StackForest.Text.Position
import StackForest.Text.Quoted
import StackForest.Text.Digit
import StackForest.Text.Space

/-!
# Lexemes of concise text

A program's text is a run of blanks, comments, quoted strings, labels and words, each as long as
it can be. Main definition: `split` takes a text apart into its lexemes, up to the first character
where none begins.
-/

namespace StackForest.Concise

def isBlank (c : Char) : Bool :=
  c == ' ' || c == '\t' || c == '\x0c' || c == '\r' || c == '\n'

def isWordChar (c : Char) : Bool :=
  !Text.isSpace c && c != '"' && c != ';' && c != '#'

inductive Kind where
  | blank
  | comment
  | quoted
  | label
  | word
  deriving DecidableEq, Repr

structure Lexeme where
  kind : Kind
  text : List Char
  deriving DecidableEq, Repr

namespace Lexeme

def isSkipped (l : Lexeme) : Bool :=
  l.kind == .blank || l.kind == .comment

/-- The kind of the lexeme at the front of `c :: r`, and how much of `r` belongs to it. -/
def first? (c : Char) (r : List Char) : Option (Kind × Nat) :=
  if isBlank c then some (.blank, (r.takeWhile isBlank).length)
  else if c = ';' then some (.comment, (r.takeWhile (· != '\n')).length)
  else if c = '"' then (Text.Quoted.closing? 0 r).map (.quoted, ·)
  else if c = '#' then
    let name := r.takeWhile isWordChar
    if name = [] then none else some (.label, name.length)
  else if isWordChar c then some (.word, (r.takeWhile isWordChar).length)
  else none

/-- The lexemes of a text and what is left in front of which none begins. -/
def split : List Char → List Lexeme × List Char
  | [] => ([], [])
  | c :: r =>
    match first? c r with
    | none => ([], c :: r)
    | some (kind, n) =>
      let (ls, rest) := split (r.drop n)
      (⟨kind, c :: r.take n⟩ :: ls, rest)
termination_by cs => cs.length

/-- Nothing of a text is lost. -/
theorem split_flatten (cs : List Char) :
    (split cs).1.flatMap text ++ (split cs).2 = cs := by
  fun_induction split cs with
  | case1 => rfl
  | case2 c r h => simp
  | case3 c r kind n h ls rest hs ih =>
    rw [hs] at ih
    rw [List.flatMap_cons, List.append_assoc, ih]
    simp

end Lexeme

/-! ## Numerals -/

/-- A power of ten that ends a numeral: nothing, or `e` and digits with an optional sign. -/
def isPower : List Char → Bool
  | [] => true
  | e :: r =>
    let ds := match r with
      | s :: ds => if s = '+' ∨ s = '-' then ds else r
      | [] => []
    (e == 'e' || e == 'E') && !ds.isEmpty && ds.all Text.isDigit

/-- The words that are numerals: an optional minus, digits with at most one point among, before or
behind them, and an optional power of ten. Digits are those of any script. -/
def isNumeral (cs : List Char) : Bool :=
  let r := match cs with
    | '-' :: r => r
    | r => r
  let whole := r.takeWhile Text.isDigit
  match r.dropWhile Text.isDigit with
  | '.' :: r =>
    let fraction := r.takeWhile Text.isDigit
    !(whole.isEmpty && fraction.isEmpty) && isPower (r.dropWhile Text.isDigit)
  | r => !whole.isEmpty && isPower r

end StackForest.Concise
