import StackForest.Instruction

/-!
# Writing concise text

An instruction is written as its number, its quoted text or its name, behind its label if it has
one. Spaces stand between instructions.
-/

namespace StackForest.Concise

def writeLabel : Value → List Char
  | .null => []
  | label => '#' :: label.display ++ [' ']

def writeBody : Instruction → List Char
  | .pushNumber n _ => n.render
  | .pushText s _ => Text.Quoted.encode s.toList
  | .invoke name _ => name.toList

def writeInstruction (i : Instruction) : List Char :=
  writeLabel i.label ++ writeBody i

def write (is : List Instruction) : List Char :=
  ((is.map writeInstruction).intersperse [' ']).flatten

end StackForest.Concise
