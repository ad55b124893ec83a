import StackForest.Instruction

/-!
# Instruction records

The dictionary form of an instruction: its type, its value or name, and its label unless there is
none. Other fields are ignored on reading.
-/

namespace StackForest.Record

inductive Fault where
  | notObject (v : Value)
  | missing (record : Value) (field : String)
  | notNumber (v : Value)
  | notText (v : Value)
  | notName (v : Value)
  | unknownKind (v : Value)
  /-- A foreign entry stands where an instruction is needed. -/
  | foreign (v : Value)

/-! ## The names of types and fields -/

def pushNumber : String := "push-number-instruction"
def pushText : String := "push-string-instruction"
def invoke : String := "invoke-function-instruction"

def kindField : String := "type"
def valueField : String := "value"
def nameField : String := "functionName"
def labelField : String := "label"

/-! ## Reading -/

/-- A field of a record, null when it is absent. -/
def optional (field : String) (fields : List (String × Value)) : Value :=
  (Fields.get? field fields).getD .null

def required (field : String) (fields : List (String × Value)) : Except Fault Value :=
  match Fields.get? field fields with
  | some v => .ok v
  | none => .error (.missing (.dict fields) field)

def decodeFields (fields : List (String × Value)) : Except Fault Instruction :=
  let label := optional labelField fields
  match optional kindField fields with
  | .text kind =>
    if kind = pushNumber then do
      match ← required valueField fields with
      | .number n => .ok (.pushNumber n label)
      | v => .error (.notNumber v)
    else if kind = pushText then do
      match ← required valueField fields with
      | .text s => .ok (.pushText s label)
      | v => .error (.notText v)
    else if kind = invoke then do
      match ← required nameField fields with
      | .text name => .ok (.invoke name label)
      | v => .error (.notName v)
    else .error (.unknownKind (.text kind))
  | kind => .error (.unknownKind kind)

def decode : Value → Except Fault Instruction
  | .dict fields => decodeFields fields
  | v => .error (.notObject v)

/-! ## Writing -/

/-- The label field of a record; there is none for null. -/
def labelFields : Value → List (String × Value)
  | .null => []
  | label => [(labelField, label)]

def encode : Instruction → Value
  | .pushNumber n label =>
    .dict ([(kindField, .text pushNumber), (valueField, .number n)] ++ labelFields label)
  | .pushText s label =>
    .dict ([(kindField, .text pushText), (valueField, .text s)] ++ labelFields label)
  | .invoke name label =>
    .dict ([(kindField, .text invoke), (nameField, .text name)] ++ labelFields label)

/-! ## Entries -/

/-- The entry of a value: an object is read as a record, anything else is foreign. -/
def entry : Value → Except Fault Entry
  | .dict fields => (decodeFields fields).map .instruction
  | v => .ok (.foreign v)

def instruction? : Entry → Except Fault Instruction
  | .instruction i => .ok i
  | .foreign v => .error (.foreign v)

/-- The instructions of a program that holds nothing foreign. -/
def instructions? (p : Program) : Except Fault (List Instruction) :=
  p.mapM instruction?

/-! ## Messages -/

def Fault.message : Fault → String
  | notObject v => "Instruction record must be an object, got: " ++ v.literalText
  | missing record field =>
    "Instruction record " ++ record.literalText ++ " is missing " ++ (Value.text field).literalText
  | notNumber v => "push-number value is not a number: " ++ v.literalText
  | notText v => "push-string value is not a string: " ++ v.literalText
  | notName v => "invoke-function name is not a string: " ++ v.literalText
  | unknownKind v => "Unknown instruction type: " ++ v.literalText
  | foreign v => "Not an instruction: " ++ v.literalText

end StackForest.Record
