import StackForest.Instruction.Record
import StackForest.Json.Printer

/-!
# Machine states

A state file holds the state of a machine before its first step, with a program as a list of
records. Only the program is read back.
-/

namespace StackForest.State

def programField : String := "programList"

inductive Fault where
  | noProgram
  /-- The program is a value of the named type, which has no items. -/
  | noItems (typeName : String)
  | record (fault : Record.Fault)

/-- The items of a value: those of a list, the characters of a text, the keys of a dictionary. -/
def items? : Value → Option (List Value)
  | .list items => some items
  | .text s => some (s.toList.map fun c => .text (.singleton c))
  | .dict fields => some (fields.map fun f => .text f.1)
  | _ => none

def program : Value → Except Fault (List Instruction)
  | .dict fields =>
    match Fields.get? programField fields with
    | none => .error .noProgram
    | some v =>
      match items? v with
      | none => .error (.noItems v.typeName)
      | some records => (records.mapM Record.decode).mapError .record
  | _ => .error .noProgram

/-- The state that is about to run a program. -/
def ofProgram (is : List Instruction) : Value :=
  .dict [("programCounter", .int 0), ("exit", .bool false), ("pause", .bool false),
    ("labelMap", .dict []), ("stack", .list []), ("context", .dict []),
    (programField, .list (is.map Record.encode))]

def render (is : List Instruction) : List Char :=
  Json.render (.spaces 2) (ofProgram is)

def render? (room : Room) (is : List Instruction) : Except Overflow (List Char) :=
  Json.render? room (.spaces 2) (ofProgram is)

end StackForest.State
