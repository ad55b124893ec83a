/-!
# Quoted strings of concise text

A quoted string stands between double quotes. A backslash pairs with the character behind it; the
pairs of `n`, `t` and `r` name control characters, and every other pair stands for its second
character.
-/

namespace StackForest.Text.Quoted

/-! ## Writing -/

def escape (c : Char) : List Char :=
  if c = '\\' then ['\\', '\\']
  else if c = '"' then ['\\', '"']
  else if c = '\n' then ['\\', 'n']
  else if c = '\t' then ['\\', 't']
  else [c]

def encode (cs : List Char) : List Char :=
  '"' :: cs.flatMap escape ++ ['"']

/-! ## Reading -/

def resolve (c : Char) : Char :=
  if c = 'n' then '\n' else if c = 't' then '\t' else if c = 'r' then '\r' else c

def unescape : List Char → List Char
  | [] => []
  | '\\' :: c :: r => resolve c :: unescape r
  | c :: r => c :: unescape r

/-- The text of a quoted string: its first and last characters go, the pairs are resolved. -/
def decode (token : List Char) : List Char :=
  unescape (token.drop 1).dropLast

/-- How far a quoted string reaches, from behind its opening quote: up to the first double quote
outside a pair. A backslash pairs with anything but a line feed. -/
def closing? (count : Nat) : List Char → Option Nat
  | [] => none
  | '"' :: _ => some (count + 1)
  | '\\' :: c :: r => if c = '\n' then none else closing? (count + 2) r
  | c :: r => if c = '\\' then none else closing? (count + 1) r

/-! ## Reading back -/

theorem unescape_escape (c : Char) (r : List Char) :
    unescape (escape c ++ r) = c :: unescape r := by
  unfold escape
  split
  · next h => subst h; rfl
  · split
    · next h => subst h; rfl
    · split
      · next h => subst h; rfl
      · split
        · next h => subst h; rfl
        · next h _ _ _ =>
          rw [List.singleton_append, unescape]
          intro _ _ hc
          exact absurd hc h

theorem unescape_flatMap_escape (cs : List Char) : unescape (cs.flatMap escape) = cs := by
  induction cs with
  | nil => rfl
  | cons c cs ih => rw [List.flatMap_cons, unescape_escape, ih]

/-- A text is what its quoted form stands for. -/
theorem decode_encode (cs : List Char) : decode (encode cs) = cs := by
  simp [decode, encode, unescape_flatMap_escape]

end StackForest.Text.Quoted
