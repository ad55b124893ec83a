import StackForest.Concise.Lexeme
import StackForest.Instruction

/-!
# Reading concise text

Each quoted string and each word is an instruction, and a label belongs to the instruction behind
it. Faults are reported where they show: a character that begins no lexeme, a second label in a
row, a label at the end, a number that is too long.
-/

namespace StackForest.Concise

open Text (Position)

inductive Fault where
  | unknownCharacter (c : Char) (position : Position)
  /-- A label directly behind another one. -/
  | secondLabel (text : List Char) (position : Position)
  /-- A label that no instruction follows. -/
  | lastLabel (position : Position)
  | number (fault : Number.Fault)
  deriving DecidableEq, Repr

namespace Fault

/-- Where a fault shows; a number that is too long has no position. -/
def position? : Fault → Option Position
  | unknownCharacter _ p | secondLabel _ p | lastLabel p => some p
  | number _ => none

/-- What is wrong, as far as the first line of the report tells. The lines behind it, about what
could stand there instead, are left out. -/
def message : Fault → String
  | unknownCharacter c p =>
    "Could not tokenize program: No terminal matches '" ++ .singleton c
      ++ s!"' in the current parser context, at line {p.line} col {p.column}"
  | secondLabel text p =>
    "Could not tokenize program: Unexpected token Token('LABEL', "
      ++ .ofList (Text.Literal.render text) ++ s!") at line {p.line}, column {p.column}."
  | lastLabel p =>
    "Could not tokenize program: Unexpected token Token('$END', '') "
      ++ s!"at line {p.line}, column {p.column}."
  | number f => f.message

end Fault

/-- A label that waits for its instruction, and where it begins. -/
structure Waiting where
  name : String
  position : Position

def labelOf : Option Waiting → Value
  | some w => .text w.name
  | none => .null

def ofWord (word : List Char) (label : Value) : Except Number.Fault Instruction :=
  if isNumeral word then (Number.read word).map (.pushNumber · label)
  else .ok (.invoke (.ofList word) label)

/-- The fault at the end of the lexemes, in front of `rest`: a character where none begins, or a
label that still waits. -/
def endFault? (rest : List Char) (position : Position) (waiting : Option Waiting) : Option Fault :=
  match rest, waiting with
  | c :: _, _ => some (.unknownCharacter c position)
  | [], some w => some (.lastLabel w.position)
  | [], none => none

/-- The fault of a number in front of the lexemes `ls` and `rest`. A number is settled when the
lexeme behind it is known, so a character that takes that lexeme's place is reported first. -/
def numberFault (fault : Number.Fault) (ls : List Lexeme) (rest : List Char)
    (position : Position) : Fault :=
  match rest with
  | c :: _ =>
    if ls.all Lexeme.isSkipped then
      .unknownCharacter c (position.after (ls.flatMap Lexeme.text))
    else .number fault
  | [] => .number fault

/-- The instructions of the lexemes from `position` on, in front of `rest`. -/
def assemble (rest : List Char) :
    Position → Option Waiting → List Lexeme → Except Fault (List Instruction)
  | position, waiting, [] =>
    match endFault? rest position waiting with
    | some f => .error f
    | none => .ok []
  | position, waiting, l :: ls =>
    let behind := position.after l.text
    match l.kind with
    | .blank | .comment => assemble rest behind waiting ls
    | .label =>
      match waiting with
      | some _ => .error (.secondLabel l.text position)
      | none => assemble rest behind (some ⟨.ofList (l.text.drop 1), position⟩) ls
    | .quoted =>
      (assemble rest behind none ls).map
        (.pushText (.ofList (Text.Quoted.decode l.text)) (labelOf waiting) :: ·)
    | .word =>
      match ofWord l.text (labelOf waiting) with
      | .ok i => (assemble rest behind none ls).map (i :: ·)
      | .error f => .error (numberFault f ls rest behind)

def read (cs : List Char) : Except Fault (List Instruction) :=
  let (ls, rest) := Lexeme.split cs
  assemble rest .start none ls

end StackForest.Concise
