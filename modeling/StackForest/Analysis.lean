import StackForest.Expr.Reconstruct
import StackForest.Graph.Program
import StackForest.Json.Printer

/-!
# Analyses

A program with the forest that it stands for, and the two in the forms in which they are saved.
-/

namespace StackForest

structure Analysis where
  program : Program
  forest : List Expr

namespace Analysis

def ofProgram (table : Table) (p : Program) : Except TreeFault Analysis :=
  (reconstruct table p).outcome.map fun forest => ⟨p, forest⟩

def json (a : Analysis) (l : Json.Layout) : List Char :=
  Json.render l (.list (Expr.toValues a.forest))

/-- The text in which the forest is saved, if there is room to convert and to write it. -/
def json? (room : Room) (a : Analysis) (l : Json.Layout) : Except Overflow (List Char) := do
  let vs ← Expr.toValues? room a.forest
  Json.render? room l (.list vs)

def forestGraph (a : Analysis) : Except Graph.ForestFault Graph :=
  Graph.ofForest a.forest

def programGraph (a : Analysis) : Except Graph.ProgramFault Graph :=
  Graph.ofProgram a.program

end Analysis
end StackForest
