import StackForest.Instruction

/-!
# What instructions refuse

Instructions and expressions never change: an edit of any attribute is refused. An instruction of
no kind has only a label, and so nothing that it could be compared or looked up by.
-/

namespace StackForest

/-- An attempt to change what stands under a name. -/
inductive Edit where
  | set (name : String)
  | delete (name : String)

namespace Edit

def refusal (kindName : String) : Edit → String
  | set name => kindName ++ " is immutable, cannot set '" ++ name ++ "'"
  | delete name => kindName ++ " is immutable, cannot delete '" ++ name ++ "'"

/-- The refusal of an edit of a plain value, which has nothing under any name. -/
def absence (v : Value) : Edit → String
  | set name | delete name => s!"'{v.typeName}' object has no attribute '" ++ name ++ "'"

end Edit

def Entry.refuse (e : Entry) (edit : Edit) : String :=
  match e with
  | instruction i => edit.refusal i.kindName
  | foreign v => edit.absence v

/-- An instruction of no kind. -/
structure BareInstruction where
  label : Value

namespace BareInstruction

def kindName : String := "Instruction"

inductive Fault where
  | noKey

/-- Bare instructions cannot be compared with each other. -/
def equal? (_ _ : BareInstruction) : Except Fault Bool := .error .noKey

/-- A bare instruction is of another kind than every instruction. -/
def equalInstruction (_ : BareInstruction) (_ : Instruction) : Bool := false

def isInvoke (_ : String) (_ : BareInstruction) : Bool := false

end BareInstruction
end StackForest
