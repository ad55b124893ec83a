import StackForest.Value
import StackForest.Text.Hex
import StackForest.Text.Position

/-!
# JSON lexemes

The lexemes of a JSON text: punctuation, strings, and the other scalars, among them `NaN`,
`Infinity` and `-Infinity`. Where a string cannot be completed, a number is too long or nothing
begins at all, the sequence ends with a lexeme that says so.
-/

namespace StackForest.Json

inductive Cause where
  | byteOrderMark
  | expectingValue
  | expectingName
  | expectingColon
  | expectingComma
  | extraData
  | unterminatedString
  | controlCharacter
  | badEscape
  | badUnicodeEscape
  deriving DecidableEq, Repr

structure Mistake where
  cause : Cause
  offset : Nat
  deriving DecidableEq, Repr

inductive Lexeme where
  | mark (c : Char)
  | scalar (v : Value)
  /-- A string with half of a surrogate pair in it, which is no text. -/
  | unpaired
  | brokenString (mistake : Mistake)
  | brokenNumber (fault : Number.Fault)
  | unknown

def isBlank (c : Char) : Bool :=
  c == ' ' || c == '\t' || c == '\n' || c == '\r'

def isMark (c : Char) : Bool :=
  c == '[' || c == ']' || c == '\x7b' || c == '\x7d' || c == ',' || c == ':'

/-! ## Strings -/

/-- A part of a string: a character, or the UTF-16 unit of a four-digit escape. -/
inductive Part where
  | char (c : Char)
  | unit (n : Nat)

def isHighSurrogate (n : Nat) : Bool := 0xD800 ≤ n && n ≤ 0xDBFF

def isLowSurrogate (n : Nat) : Bool := 0xDC00 ≤ n && n ≤ 0xDFFF

/-- The character of a UTF-16 unit; there is none for half of a surrogate pair. -/
def ofUnit? (n : Nat) : Option Char :=
  if isHighSurrogate n || isLowSurrogate n then none else some (.ofNat n)

/-- The text of a string's parts: two surrogates that make a pair are one character. -/
def joinParts? : List Part → Option (List Char)
  | [] => some []
  | .char c :: ps => (joinParts? ps).map (c :: ·)
  | .unit high :: .unit low :: ps =>
    if isHighSurrogate high && isLowSurrogate low then
      (joinParts? ps).map (.ofNat (0x10000 + (high - 0xD800) * 0x400 + (low - 0xDC00)) :: ·)
    else (ofUnit? high).bind fun c => (joinParts? (.unit low :: ps)).map (c :: ·)
  | .unit n :: ps => (ofUnit? n).bind fun c => (joinParts? ps).map (c :: ·)

/-- The lexeme of a string's parts. -/
def ofParts (parts : List Part) : Lexeme :=
  match joinParts? parts with
  | some cs => .scalar (.text (.ofList cs))
  | none => .unpaired

def resolve? (c : Char) : Option Char :=
  if c = '"' ∨ c = '\\' ∨ c = '/' then some c
  else if c = 'b' then some '\x08'
  else if c = 'f' then some '\x0c'
  else if c = 'n' then some '\n'
  else if c = 'r' then some '\r'
  else if c = 't' then some '\t'
  else none

/-- Where a string is being read: between its parts, behind the backslash at an offset, or in a
four-digit escape whose `u` stands at an offset, with the digits still to come and the value so
far. -/
inductive Scan where
  | plain
  | escape (backslash : Nat)
  | unit (u : Nat) (left : Nat) (value : Nat)

/-- Reads a string, which was opened at `opening`, from the character at `offset` on. It answers
the parts and the offset behind the closing quote; `acc` holds the parts so far, newest first. A
four-digit escape is complete only if something follows it. -/
def scanString (opening : Nat) :
    Nat → List Part → Scan → List Char → Except Mistake (List Part × Nat)
  | _, _, .unit u _ _, [] => .error ⟨.badUnicodeEscape, u⟩
  | _, _, _, [] => .error ⟨.unterminatedString, opening⟩
  | offset, acc, .plain, c :: r =>
    if c = '"' then .ok (acc.reverse, offset + 1)
    else if c = '\\' then scanString opening (offset + 1) acc (.escape offset) r
    else if c.toNat < 0x20 then .error ⟨.controlCharacter, offset⟩
    else scanString opening (offset + 1) (.char c :: acc) .plain r
  | offset, acc, .escape backslash, c :: r =>
    if c = 'u' then scanString opening (offset + 1) acc (.unit offset 4 0) r
    else match resolve? c with
      | some c => scanString opening (offset + 1) (.char c :: acc) .plain r
      | none => .error ⟨.badEscape, backslash⟩
  | offset, acc, .unit u left value, c :: r =>
    match Text.hexValue? c with
    | none => .error ⟨.badUnicodeEscape, u⟩
    | some d =>
      if 1 < left then scanString opening (offset + 1) acc (.unit u (left - 1) (16 * value + d)) r
      else if r = [] then .error ⟨.badUnicodeEscape, u⟩
      else scanString opening (offset + 1) (.unit (16 * value + d) :: acc) .plain r

/-! ## Numbers and words -/

/-- The whole part of a number: a zero, or digits that do not begin with one. -/
def wholePart : List Char → List Char
  | [] => []
  | c :: r =>
    if c = '0' then ['0']
    else if Decimal.isAsciiDigit c then c :: r.takeWhile Decimal.isAsciiDigit
    else []

def fractionPart : List Char → List Char
  | '.' :: r =>
    let ds := r.takeWhile Decimal.isAsciiDigit
    if ds = [] then [] else '.' :: ds
  | _ => []

def powerPart : List Char → List Char
  | e :: r =>
    let sign := match r with
      | s :: _ => if s = '+' ∨ s = '-' then [s] else []
      | [] => []
    let ds := (r.drop sign.length).takeWhile Decimal.isAsciiDigit
    if (e = 'e' ∨ e = 'E') ∧ ds ≠ [] then e :: sign ++ ds else []
  | [] => []

/-- The number at the front of a text and its length. A number with a fraction or a power of ten
is a binary64 number. -/
def number? (cs : List Char) : Option (Except Number.Fault Number × Nat) :=
  let sign := if cs.head? = some '-' then ['-'] else []
  let whole := wholePart (cs.drop sign.length)
  let fraction := fractionPart (cs.drop (sign.length + whole.length))
  let power := powerPart (cs.drop (sign.length + whole.length + fraction.length))
  let text := sign ++ whole ++ fraction ++ power
  if whole = [] then none
  else if fraction = [] ∧ power = [] then
    some (Number.ofDigits? (sign ≠ []) (whole.map fun c => c.toNat - 0x30), text.length)
  else (Decimal.read? text).map fun d => (.ok (.real (.ofDecimal d)), text.length)

def words : List (List Char × Value) :=
  [("null".toList, .null), ("true".toList, .bool true), ("false".toList, .bool false),
    ("NaN".toList, .number (.real .nan)),
    ("Infinity".toList, .number (.real (.infinite false))),
    ("-Infinity".toList, .number (.real (.infinite true)))]

def scalar (cs : List Char) : Lexeme × Nat :=
  match words.find? fun w => w.1.isPrefixOf cs with
  | some (word, v) => (.scalar v, word.length)
  | none => match number? cs with
    | some (.ok n, length) => (.scalar (.number n), length)
    | some (.error f, length) => (.brokenNumber f, length)
    | none => (.unknown, 0)

/-! ## The sequence of lexemes -/

/-- The lexeme at the front of `c :: r`, which begins at `offset`, and how much of `r` belongs to
it. -/
def first (offset : Nat) (c : Char) (r : List Char) : Lexeme × Nat :=
  if isMark c then (.mark c, 0)
  else if c = '"' then
    match scanString offset (offset + 1) [] .plain r with
    | .ok (parts, behind) => (ofParts parts, behind - offset - 1)
    | .error m => (.brokenString m, 0)
  else
    let (lexeme, length) := scalar (c :: r)
    (lexeme, length - 1)

def Lexeme.isComplete : Lexeme → Bool
  | mark _ | scalar _ | unpaired => true
  | _ => false

def Lexeme.isUnpaired : Lexeme → Bool
  | unpaired => true
  | _ => false

/-- The lexemes of a text that begins at `offset`, each with its own offset. The first that is not
complete is the last one. -/
def lexemes (offset : Nat) : List Char → List (Lexeme × Nat)
  | [] => []
  | c :: r =>
    if isBlank c then lexemes (offset + 1) r
    else
      let (lexeme, length) := first offset c r
      (lexeme, offset) ::
        if lexeme.isComplete then lexemes (offset + 1 + length) (r.drop length) else []
termination_by cs => cs.length

end StackForest.Json
