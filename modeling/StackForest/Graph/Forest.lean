import StackForest.Graph
import StackForest.Expr.Walk
import StackForest.Text.Quoted

/-!
# The graph of a forest

One node for each expression, numbered in pre-order, and one edge from each parent to each of its
children. An edge stands directly behind the node that it leads to.
-/

namespace StackForest.Graph

/-- Why a forest has no graph: a text literal holds a value of the named type. -/
inductive ForestFault where
  | notText (typeName : String)

def color : Expr → String
  | .literal .number _ _ => "#AED6F1"
  | .literal .text _ _ => "#A9DFBF"
  | .call _ _ _ _ _ => "#F9E79F"
  | .block _ _ _ _ => "#D7BDE2"
  | .bare _ _ _ _ => "#FFFFFF"

/-- What a node's label shows of its value: a text literal is quoted. -/
def valueText : Expr → Except ForestFault (List Char)
  | .literal .text (.text s) _ => .ok (Text.Quoted.encode s.toList)
  | .literal .text v _ => .error (.notText v.typeName)
  | e => .ok e.value.display

/-- The first line of a label: the label of the expression, if there is one. -/
def labelLine : Value → List Char
  | .null => []
  | l => '#' :: l.display ++ ['\n']

/-- The label of an expression, before it is quoted. -/
def expressionLabel (e : Expr) : Except ForestFault (List Char) :=
  (valueText e).map fun text =>
    labelLine e.label ++ text ++ s!"\n[-{e.consumes} +{e.produces}]".toList

def nodeId (n : Nat) : String := s!"n{n}"

def nodeStatements (n : Nat) (e : Expr) (parent : Option Nat) :
    Except ForestFault (List Statement) :=
  (expressionLabel e).map fun label =>
    .node (nodeId n) [("label", .ofList (quoteLabel label)),
        ("shape", if e.children.isEmpty then "ellipse" else "box"), ("style", "filled"),
        ("fillcolor", "\"" ++ color e ++ "\""), ("fontname", "Helvetica")]
      :: match parent with
        | some p => [.edge (nodeId p) (nodeId n)]
        | none => []

def forestStatements (n : Nat) :
    List (Expr × Option Nat) → Except ForestFault (List Statement)
  | [] => .ok []
  | (e, parent) :: nodes => do
    let head ← nodeStatements n e parent
    let tail ← forestStatements (n + 1) nodes
    return head ++ tail

def ofForest (forest : List Expr) : Except ForestFault Graph :=
  (forestStatements 0 (Expr.walk forest)).map fun statements =>
    ⟨"syntax_tree", [("rankdir", "TB"), ("fontname", "Helvetica")], statements⟩

end StackForest.Graph
