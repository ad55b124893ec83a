/-!
# Directed graphs in the dot language

A graph has a name, settings, and statements in the order in which they are written: nodes with
their attributes, and edges. Attribute values are written as they are, so a label has to be quoted
beforehand; `quoteLabel` does so.
-/

namespace StackForest

inductive Graph.Statement where
  | node (id : String) (attributes : List (String × String))
  | edge (source target : String)
  deriving DecidableEq, Repr

structure Graph where
  name : String
  settings : List (String × String)
  statements : List Graph.Statement
  deriving Repr

namespace Graph

/-! ## Labels -/

def replace (c : Char) (new : List Char) (cs : List Char) : List Char :=
  cs.flatMap fun d => if d = c then new else [d]

/-- A label between double quotes: first backslashes are escaped, then double quotes, then line
feeds. -/
def quoteLabel (cs : List Char) : List Char :=
  let escaped := replace '\n' ['\\', 'n'] (replace '"' ['\\', '"'] (replace '\\' ['\\', '\\'] cs))
  '"' :: escaped ++ ['"']

/-! ## Text -/

def Statement.isNode : Statement → Bool
  | node _ _ => true
  | edge _ _ => false

def nodeCount (g : Graph) : Nat := g.statements.countP Statement.isNode

def edgeCount (g : Graph) : Nat := g.statements.countP (!·.isNode)

def setting (s : String × String) : String := s.1 ++ "=" ++ s.2

/-- A statement without its line end. -/
def Statement.render : Statement → String
  | node id attributes => id ++ " [" ++ ", ".intercalate (attributes.map setting) ++ "];"
  | edge source target => source ++ " -> " ++ target ++ ";"

def lines (g : Graph) : List String :=
  ("digraph " ++ g.name ++ " \x7b") :: g.settings.map (setting · ++ ";")
    ++ g.statements.map Statement.render ++ ["\x7d"]

/-- The text of a graph, each line ended by a line feed. -/
def render (g : Graph) : String :=
  String.join (g.lines.map (· ++ "\n"))

end Graph
end StackForest
