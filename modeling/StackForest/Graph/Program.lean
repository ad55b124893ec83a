import StackForest.Graph.Forest
import StackForest.Instruction

/-!
# The graph of a program

One node for each instruction and an edge from each to the next.
-/

namespace StackForest.Graph

/-- Why a program has no graph: an entry is a value of the named type, which has no label. -/
inductive ProgramFault where
  | noLabel (typeName : String)

def instructionText : Instruction → List Char
  | .pushNumber n _ => "push ".toList ++ n.render
  | .pushText s _ => "push ".toList ++ Text.Quoted.encode s.toList
  | .invoke name _ => name.toList

def instructionLabel (index : Nat) (i : Instruction) : List Char :=
  labelLine i.label ++ s!"{index}: ".toList ++ instructionText i

def instructionId (n : Nat) : String := s!"i{n}"

def instructionStatements (index : Nat) (i : Instruction) : List Statement :=
  .node (instructionId index) [("label", .ofList (quoteLabel (instructionLabel index i))),
      ("shape", "box"), ("fontname", "Helvetica")]
    :: if index = 0 then [] else [.edge (instructionId (index - 1)) (instructionId index)]

def programStatements (index : Nat) : Program → Except ProgramFault (List Statement)
  | [] => .ok []
  | .foreign v :: _ => .error (.noLabel v.typeName)
  | .instruction i :: es =>
    (programStatements (index + 1) es).map (instructionStatements index i ++ ·)

def ofProgram (p : Program) : Except ProgramFault Graph :=
  (programStatements 0 p).map fun statements =>
    ⟨"program_list", [("rankdir", "LR"), ("fontname", "Helvetica")], statements⟩

end StackForest.Graph
