import StackForest.Graph.Forest
import StackForest.Graph.Program
import StackForest.Proofs.Linear

/-!
# Graphs of programs

Every program of instructions has a graph, and so has every forest that a program stands for.
-/

namespace StackForest

open StackForest.Expr ShiftReduce

theorem forall_mem_walkFrom {P : Expr → Prop} (h : ∀ e, P e → ∀ c ∈ e.children, P c)
    (next : Nat) (stack : List (Expr × Option Nat)) (hstack : ∀ n ∈ stack, P n.1) :
    ∀ n ∈ walkFrom next stack, P n.1 := by
  fun_induction walkFrom next stack with
  | case1 => simp
  | case2 next e parent stack ih =>
    rw [List.forall_mem_cons] at hstack ⊢
    refine ⟨hstack.1, ih ?_⟩
    intro n hn
    rcases List.mem_append.mp hn with hn | hn
    · obtain ⟨c, hc, rfl⟩ := List.mem_map.mp hn
      exact h e hstack.1 c hc
    · exact hstack.2 n hn

theorem forall_mem_walk {P : Expr → Prop} (h : ∀ e, P e → ∀ c ∈ e.children, P c)
    {forest : List Expr} (hforest : ∀ e ∈ forest, P e) : ∀ n ∈ walk forest, P n.1 := by
  refine forall_mem_walkFrom h 0 _ ?_
  intro n hn
  obtain ⟨e, he, rfl⟩ := List.mem_map.mp hn
  exact hforest e he

namespace Graph

theorem exists_valueText {table : Table} {e : Expr} (h : wellFormed table e = true) :
    ∃ text, valueText e = .ok text := by
  cases e with
  | literal kind v l =>
    cases kind with
    | number => exact ⟨_, rfl⟩
    | text =>
      cases v with
      | text s => exact ⟨_, rfl⟩
      | _ => cases h
  | call _ _ _ _ _ => exact ⟨_, rfl⟩
  | block _ _ _ _ => exact ⟨_, rfl⟩
  | bare _ _ _ _ => exact ⟨_, rfl⟩

theorem exists_forestStatements {table : Table} : ∀ {nodes : List (Expr × Option Nat)},
    (∀ n ∈ nodes, wellFormed table n.1 = true) → ∀ next : Nat,
      ∃ statements, forestStatements next nodes = .ok statements
  | [], _, _ => ⟨[], rfl⟩
  | (e, parent) :: nodes, h, next => by
    rw [List.forall_mem_cons] at h
    obtain ⟨text, htext⟩ := exists_valueText h.1
    obtain ⟨tail, htail⟩ := exists_forestStatements h.2 (next + 1)
    simp only [forestStatements, nodeStatements, expressionLabel, htext, htail]
    exact ⟨_, rfl⟩

theorem exists_ofForest {table : Table} {forest : List Expr}
    (h : wellFormedAll table forest = true) : ∃ g, ofForest forest = .ok g := by
  have hwalk : ∀ n ∈ walk forest, wellFormed table n.1 = true := by
    refine forall_mem_walk ?_ (wellFormedAll_iff.mp h)
    intro e he
    exact wellFormedAll_iff.mp (wellFormedAll_children he)
  obtain ⟨statements, hs⟩ := exists_forestStatements hwalk 0
  rw [ofForest, hs]
  exact ⟨_, rfl⟩

theorem exists_ofProgram (is : List Instruction) :
    ∃ g, ofProgram (is.map .instruction) = .ok g := by
  have hstatements : ∀ (is : List Instruction) (index : Nat),
      ∃ statements, programStatements index (is.map .instruction) = .ok statements := by
    intro is
    induction is with
    | nil => intro index; exact ⟨[], rfl⟩
    | cons i is ih =>
      intro index
      obtain ⟨tail, htail⟩ := ih (index + 1)
      rw [List.map_cons, programStatements, htail]
      exact ⟨_, rfl⟩
  obtain ⟨statements, hs⟩ := hstatements is 0
  rw [ofProgram, hs]
  exact ⟨_, rfl⟩

/-! ## The statements of a graph -/

@[simp] theorem isNode_node (id : String) (attributes : List (String × String)) :
    (Statement.node id attributes).isNode = true := rfl

@[simp] theorem isNode_edge (source target : String) :
    (Statement.edge source target).isNode = false := rfl

def nodeStatement (n : Nat) (e : Expr) (label : List Char) : Statement :=
  .node (nodeId n) [("label", .ofList (quoteLabel label)),
    ("shape", if e.children.isEmpty then "ellipse" else "box"), ("style", "filled"),
    ("fillcolor", "\"" ++ color e ++ "\""), ("fontname", "Helvetica")]

def edgeStatements (n : Nat) (parent : Option Nat) : List Statement :=
  (parent.map fun p => Statement.edge (nodeId p) (nodeId n)).toList

theorem nodeStatements_eq (n : Nat) (e : Expr) (parent : Option Nat) :
    nodeStatements n e parent =
      (expressionLabel e).map fun label => nodeStatement n e label :: edgeStatements n parent := by
  cases parent <;> rfl

/-- The statements for the nodes of a walk, of which the first has the number `n`, with the labels
of the nodes. -/
inductive Draws : Nat → List (Expr × Option Nat) → List (List Char) → List Statement → Prop
  | nil {n : Nat} : Draws n [] [] []
  | cons {n : Nat} {e : Expr} {label : List Char} {nodes labels ss} (parent : Option Nat) :
    expressionLabel e = .ok label → Draws (n + 1) nodes labels ss →
    Draws n ((e, parent) :: nodes) (label :: labels)
      (nodeStatement n e label :: edgeStatements n parent ++ ss)

theorem draws_of_forestStatements : ∀ {nodes : List (Expr × Option Nat)} {n : Nat} {ss},
    forestStatements n nodes = .ok ss → ∃ labels, Draws n nodes labels ss
  | [], n, ss, h => by
    cases h
    exact ⟨[], .nil⟩
  | (e, parent) :: nodes, n, ss, h => by
    obtain ⟨head, hhead, h⟩ := exists_of_bind_eq_ok h
    obtain ⟨tail, htail, h⟩ := exists_of_bind_eq_ok h
    rw [nodeStatements_eq] at hhead
    obtain ⟨label, hlabel, rfl⟩ := map_eq_ok_iff.mp hhead
    obtain ⟨labels, hdraws⟩ := draws_of_forestStatements htail
    cases h
    exact ⟨_, .cons parent hlabel hdraws⟩

theorem draws_of_ofForest {forest : List Expr} {g : Graph} (h : ofForest forest = .ok g) :
    ∃ labels ss, Draws 0 (walk forest) labels ss ∧
      g = ⟨"syntax_tree", [("rankdir", "TB"), ("fontname", "Helvetica")], ss⟩ := by
  obtain ⟨ss, hss, rfl⟩ := map_eq_ok_iff.mp h
  obtain ⟨labels, hdraws⟩ := draws_of_forestStatements hss
  exact ⟨labels, ss, hdraws, rfl⟩

end Graph
end StackForest
