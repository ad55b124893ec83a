import StackForest.Proofs.Graph
import StackForest.Proofs.Walk

/-!
# The shape of a graph

The graph of a forest has a node for each node of the forest and an edge from each node to each of
its children (`graph_of_reconstruct`).
-/

namespace StackForest

inductive Shape where
  | node (children : List Shape)

namespace Expr

mutual
def shape : Expr → Shape
  | call _ _ _ _ es => .node (shapeAll es)
  | block _ _ _ es => .node (shapeAll es)
  | _ => .node []
def shapeAll : List Expr → List Shape
  | [] => []
  | e :: es => shape e :: shapeAll es
end

theorem shapeAll_eq_map (es : List Expr) : shapeAll es = es.map shape := by
  induction es with
  | nil => rfl
  | cons e es ih => rw [shapeAll, ih, List.map_cons]

theorem shape_eq (e : Expr) : shape e = .node (e.children.map shape) := by
  rw [← shapeAll_eq_map]
  cases e <;> rfl

/-! ## Links -/

/-- The numbers of each node that has a parent, the parent's first, in pre-order. -/
def links (forest : List Expr) : List (Nat × Nat) :=
  (walk forest).zipIdx.filterMap fun x => x.1.2.map (·, x.2)

section
variable {forest : List Expr}

theorem links_eq (forest : List Expr) : links forest = (nodes forest).filterMap fun s =>
    (parentNumber? forest s.1).map (·, number forest s.1) := by
  rw [links, walk_eq, List.zipIdx_map, List.filterMap_map, zipIdx_nodes, List.filterMap_map]
  rfl

theorem links_to {s : Address × Expr} (hs : s ∈ nodes forest) :
    (links forest).filter (·.2 == number forest s.1) =
      ((parentNumber? forest s.1).map (·, number forest s.1)).toList := by
  have hown : ∀ t ∈ nodes forest,
      ((parentNumber? forest t.1).map (·, number forest t.1)).filter (·.2 == number forest s.1) =
        if t.1 == s.1 then (parentNumber? forest t.1).map (·, number forest t.1) else none := by
    intro t ht
    by_cases h : t.1 = s.1
    · cases hp : parentNumber? forest t.1 <;> simp [h]
    · have hnumber : number forest t.1 ≠ number forest s.1 :=
        fun heq => h (congrArg Prod.fst (number_injective ht hs heq))
      cases hp : parentNumber? forest t.1 <;> simp [h, hnumber]
  rw [links_eq, List.filter_filterMap, List.filterMap_congr hown, ← List.filterMap_filter,
    filter_address hs]
  cases hp : parentNumber? forest s.1 <;> simp [hp]

theorem links_from {s : Address × Expr} (hs : s ∈ nodes forest) :
    (links forest).filter (·.1 == number forest s.1) =
      s.2.children.zipIdx.map fun c => (number forest s.1, number forest (s.1 ++ [c.2])) := by
  have hown : ∀ t ∈ nodes forest,
      ((parentNumber? forest t.1).map (·, number forest t.1)).filter (·.1 == number forest s.1) =
        if t.1.dropLast == s.1 then some (number forest s.1, number forest t.1) else none := by
    intro t ht
    by_cases hroot : t.1.length = 1
    · have hne : t.1.dropLast ≠ s.1 := by
        rw [List.length_eq_one_iff] at hroot
        obtain ⟨i, hi⟩ := hroot
        rw [hi]
        exact (ne_nil_of_mem hs).symm
      simp [parentNumber?, hroot, hne]
    · obtain ⟨q, hq, hdrop, -⟩ := exists_parent ht hroot
      rw [parentNumber?, if_neg hroot, ← hdrop]
      by_cases h : q.1 = s.1
      · simp [h]
      · have hnumber : number forest q.1 ≠ number forest s.1 :=
          fun heq => h (congrArg Prod.fst (number_injective hq hs heq))
        simp [h, hnumber]
  rw [links_eq, List.filter_filterMap, List.filterMap_congr hown, ← List.filterMap_filter,
    filter_nodes hs, siblings, List.filterMap_map, ← List.filterMap_eq_map]
  rfl

theorem length_links (forest : List Expr) :
    (links forest).length + forest.length = sizeAll forest := by
  have hroots : (nodes forest).countP (fun s => s.1.dropLast == []) = forest.length := by
    rw [List.countP_eq_length_filter, nodes, filter_siblings, siblings, List.length_map,
      List.length_zipIdx]
  have hlinks : (links forest).length = (nodes forest).countP fun s => !(s.1.dropLast == []) := by
    rw [links_eq, List.length_filterMap_eq_countP]
    refine List.countP_congr fun s hs => ?_
    rw [← isNone_parentNumber? hs]
    cases parentNumber? forest s.1 <;> simp
  rw [hlinks, ← hroots, ← length_nodes,
    List.length_eq_countP_add_countP (fun s => s.1.dropLast == []) (l := nodes forest)]
  simp only [Bool.not_eq_true, Bool.decide_eq_false, Nat.add_comm]

end

end Expr
namespace Graph

open StackForest.Expr

/-! ## Nodes and edges -/

def Statement.id? : Statement → Option String
  | node id _ => some id
  | edge _ _ => none

def Statement.ends? : Statement → Option (String × String)
  | node _ _ => none
  | edge source target => some (source, target)

def nodeIds (g : Graph) : List String := g.statements.filterMap Statement.id?

def edges (g : Graph) : List (String × String) := g.statements.filterMap Statement.ends?

def edgesTo (g : Graph) (id : String) : List (String × String) := g.edges.filter (·.2 == id)

def edgesFrom (g : Graph) (id : String) : List (String × String) := g.edges.filter (·.1 == id)

/-- The shape of what is reached along edges from a node, in so many steps. -/
def shapeFrom (g : Graph) : Nat → String → Shape
  | 0, _ => .node []
  | steps + 1, id => .node ((g.edgesFrom id).map fun edge => g.shapeFrom steps edge.2)

/-- The shapes of the trees in a graph, whose roots are the nodes without an edge to them. -/
def shapes (g : Graph) : List Shape :=
  (g.nodeIds.filter fun id => (g.edgesTo id).isEmpty).map (g.shapeFrom g.nodeIds.length)

theorem nodeId_injective {m n : Nat} (h : nodeId m = nodeId n) : m = n := by
  have hchars := congrArg String.toList h
  have hdigits (n : Nat) : (nodeId n).toList = 'n' :: Nat.toDigits 10 n := by
    change ("n" ++ n.repr).toList = _
    rw [String.toList_append, Nat.toList_repr]
    rfl
  rw [hdigits, hdigits, List.cons.injEq] at hchars
  rw [← Nat.ofDigitChars_ten_toDigits (n := m), hchars.2, Nat.ofDigitChars_ten_toDigits]

theorem nodeId_beq (m n : Nat) : (nodeId m == nodeId n) = (m == n) := by
  rw [Bool.eq_iff_iff, beq_iff_eq, beq_iff_eq]
  exact ⟨nodeId_injective, congrArg nodeId⟩

section
variable {n : Nat} {walked : List (Expr × Option Nat)} {labels : List (List Char)}
  {ss : List Statement} (h : Draws n walked labels ss)

include h

theorem ids_of_draws : ss.filterMap Statement.id? = (List.range' n walked.length).map nodeId := by
  induction h with
  | nil => rfl
  | @cons n e label walked labels ss parent _ _ ih =>
    have hedge : (edgeStatements n parent).filterMap Statement.id? = [] := by
      cases parent <;> rfl
    rw [List.filterMap_append, List.filterMap_cons, hedge, ih, List.length_cons,
      List.range'_succ, List.map_cons]
    rfl

theorem ends_of_draws : ss.filterMap Statement.ends? =
    (walked.zipIdx n).filterMap fun x => x.1.2.map fun m => (nodeId m, nodeId x.2) := by
  induction h with
  | nil => rfl
  | @cons n e label walked labels ss parent _ _ ih =>
    rw [List.filterMap_append, ih, List.zipIdx_cons, List.filterMap_cons]
    cases parent <;> rfl

theorem statement_of_draws {i : Nat} {e : Expr} {parent : Option Nat}
    (hi : walked[i]? = some (e, parent)) :
    ∃ label, expressionLabel e = .ok label ∧ nodeStatement (n + i) e label ∈ ss := by
  induction h generalizing i with
  | nil => cases hi
  | @cons n f label walked labels ss parent' hlabel _ ih =>
    cases i with
    | zero =>
      cases hi
      exact ⟨label, hlabel, List.mem_append_left _ (.head _)⟩
    | succ i =>
      obtain ⟨label', hlabel', hmem⟩ := ih hi
      rw [Nat.add_right_comm] at hmem
      exact ⟨label', hlabel', List.mem_append_right _ hmem⟩

end

/-! ## The graph of a forest -/

def idAt (forest : List Expr) (a : Address) : String := nodeId (number forest a)

/-- What the graph of a forest has for a node: a statement with its label, an edge from its parent,
which has a smaller number, and edges to its children in order. -/
structure Pictures (g : Graph) (forest : List Expr) (s : Address × Expr) : Prop where
  statement : ∃ label, expressionLabel s.2 = .ok label ∧
    nodeStatement (number forest s.1) s.2 label ∈ g.statements
  root : s.1.length = 1 → g.edgesTo (idAt forest s.1) = []
  parent : s.1.length ≠ 1 → ∃ t ∈ nodes forest, ∃ i, s.1 = t.1 ++ [i] ∧
    t.2.children[i]? = some s.2 ∧ number forest t.1 < number forest s.1 ∧
    g.edgesTo (idAt forest s.1) = [(idAt forest t.1, idAt forest s.1)]
  children : g.edgesFrom (idAt forest s.1) =
    s.2.children.zipIdx.map fun c => (idAt forest s.1, idAt forest (s.1 ++ [c.2]))

section
variable {forest : List Expr} {g : Graph} (h : ofForest forest = .ok g)

include h

theorem nodeIds_eq : g.nodeIds = (nodes forest).map fun s => idAt forest s.1 := by
  obtain ⟨labels, ss, hdraws, rfl⟩ := draws_of_ofForest h
  have hlength : (walk forest).length = (nodes forest).length := by
    rw [walk_eq, List.length_map]
  rw [nodeIds, ids_of_draws hdraws, hlength, ← numbers_nodes, List.map_map]
  rfl

theorem nodeIds_eq_range : g.nodeIds = (List.range (sizeAll forest)).map nodeId := by
  rw [nodeIds_eq h, ← length_nodes, List.range_eq_range', ← numbers_nodes, List.map_map]
  rfl

theorem edges_eq : g.edges = (links forest).map fun link => (nodeId link.1, nodeId link.2) := by
  obtain ⟨labels, ss, hdraws, rfl⟩ := draws_of_ofForest h
  rw [edges, ends_of_draws hdraws, links, List.map_filterMap]
  refine List.filterMap_congr fun x _ => ?_
  cases x.1.2 <;> rfl

theorem edgesTo_eq {s : Address × Expr} (hs : s ∈ nodes forest) :
    g.edgesTo (idAt forest s.1) =
      ((parentNumber? forest s.1).map (nodeId ·, idAt forest s.1)).toList := by
  have hends : ((fun edge : String × String => edge.2 == idAt forest s.1) ∘
      fun link : Nat × Nat => (nodeId link.1, nodeId link.2)) =
        fun link => link.2 == number forest s.1 :=
    funext fun link => nodeId_beq link.2 _
  rw [edgesTo, edges_eq h, List.filter_map, hends, links_to hs]
  cases parentNumber? forest s.1 <;> rfl

theorem edgesFrom_eq {s : Address × Expr} (hs : s ∈ nodes forest) :
    g.edgesFrom (idAt forest s.1) =
      s.2.children.zipIdx.map fun c => (idAt forest s.1, idAt forest (s.1 ++ [c.2])) := by
  have hends : ((fun edge : String × String => edge.1 == idAt forest s.1) ∘
      fun link : Nat × Nat => (nodeId link.1, nodeId link.2)) =
        fun link => link.1 == number forest s.1 :=
    funext fun link => nodeId_beq link.1 _
  rw [edgesFrom, edges_eq h, List.filter_map, hends, links_from hs, List.map_map]
  rfl

theorem pictures_of_ofForest {s : Address × Expr} (hs : s ∈ nodes forest) :
    g.Pictures forest s := by
  refine ⟨?_, fun hroot => ?_, fun hroot => ?_, edgesFrom_eq h hs⟩
  · obtain ⟨labels, ss, hdraws, rfl⟩ := draws_of_ofForest h
    have hwalk : (walk forest)[number forest s.1]? = some (s.2, parentNumber? forest s.1) := by
      rw [walk_eq, List.getElem?_map, getElem?_number hs]
      rfl
    have hstatement := statement_of_draws hdraws hwalk
    rw [Nat.zero_add] at hstatement
    exact hstatement
  · rw [edgesTo_eq h hs, parentNumber?, if_pos hroot]
    rfl
  · obtain ⟨t, ht, hdrop, hlt, i, hi, hchild⟩ := exists_parent hs hroot
    refine ⟨t, ht, i, hi, hchild, hlt, ?_⟩
    rw [edgesTo_eq h hs, parentNumber?, if_neg hroot, ← hdrop]
    rfl

theorem length_edges : g.edges.length + forest.length = sizeAll forest := by
  rw [edges_eq h, List.length_map, length_links]

/-! ## Shapes -/

theorem shapeFrom_eq {s : Address × Expr} (hs : s ∈ nodes forest) {steps : Nat}
    (hsteps : size s.2 ≤ steps) : g.shapeFrom steps (idAt forest s.1) = shape s.2 := by
  induction steps generalizing s with
  | zero =>
    rw [size_eq] at hsteps
    omega
  | succ steps ih =>
    rw [size_eq] at hsteps
    have hchildren : ∀ c ∈ s.2.children.zipIdx,
        g.shapeFrom steps (idAt forest (s.1 ++ [c.2])) = shape c.1 := by
      intro c hc
      have hsize := size_le_sizeAll (List.fst_mem_of_mem_zipIdx hc)
      have hle : size c.1 ≤ steps := by omega
      exact ih (s := (s.1 ++ [c.2], c.1)) (mem_nodes_of_child hs hc) hle
    rw [shapeFrom, edgesFrom_eq h hs, List.map_map, shape_eq,
      ← congrArg (List.map shape) (List.zipIdx_map_fst 0 s.2.children), List.map_map]
    exact congrArg Shape.node (List.map_congr_left hchildren)

theorem shapes_eq : g.shapes = forest.map shape := by
  have hroot : ∀ s ∈ nodes forest,
      (g.edgesTo (idAt forest s.1)).isEmpty = (s.1.dropLast == []) := by
    intro s hs
    rw [edgesTo_eq h hs, ← isNone_parentNumber? hs]
    cases parentNumber? forest s.1 <;> rfl
  have hroots : g.nodeIds.filter (fun id => (g.edgesTo id).isEmpty) =
      (siblings [] 0 forest).map fun s => idAt forest s.1 := by
    rw [nodeIds_eq h, List.filter_map, ← filter_siblings]
    exact congrArg (List.map _) (List.filter_congr hroot)
  have htrees : ∀ x ∈ forest.zipIdx,
      g.shapeFrom g.nodeIds.length (idAt forest [x.2]) = shape x.1 := by
    intro x hx
    have hle : size x.1 ≤ g.nodeIds.length := by
      rw [nodeIds_eq h, List.length_map, length_nodes]
      exact size_le_sizeAll (List.fst_mem_of_mem_zipIdx hx)
    exact shapeFrom_eq h (s := ([x.2], x.1)) (mem_nodes_of_root hx) hle
  rw [shapes, hroots, siblings, List.map_map, List.map_map,
    ← congrArg (List.map shape) (List.zipIdx_map_fst 0 forest), List.map_map]
  exact List.map_congr_left htrees

end

end Graph

open StackForest.Expr StackForest.Graph ShiftReduce

/-- **The graph of a forest.** A program's forest is walked in the pre-order of its trees, which
have the program's entries in their order. The graph has a node for each entry but an opening brace,
in the order of the walk, with its edges as in the forest, whose shape is read back along them. -/
theorem graph_of_reconstruct {table : Table} {p : Program} {forest : List Expr}
    (h : (reconstruct table p).outcome = .ok forest) :
    (postorderAll forest).map origin? = (p.filter (!·.isOpen)).map some ∧
      walk forest = (nodes forest).map (fun s => (s.2, parentNumber? forest s.1)) ∧
      ∃ g, ofForest forest = .ok g ∧
        g.nodeIds = (List.range (p.countP (!·.isOpen))).map nodeId ∧
        (∀ n s, (nodes forest)[n]? = some s → number forest s.1 = n ∧ g.Pictures forest s) ∧
        g.edges.length + forest.length = p.countP (!·.isOpen) ∧
        g.shapes = forest.map shape := by
  obtain ⟨items, hrun, rfl⟩ := exists_run_of_reconstruct h
  obtain ⟨g, hg⟩ := exists_ofForest (wellFormedAll_of_run hrun)
  have hentries := postorder_of_run hrun
  have hsize : sizeAll (trees items) = p.countP (!·.isOpen) := by
    have hlength := congrArg List.length hentries
    rw [List.length_map, List.length_map, length_postorderAll] at hlength
    rw [hlength, List.countP_eq_length_filter]
  refine ⟨hentries, walk_eq _, g, hg, ?_, fun n s hn => ?_, ?_, shapes_eq hg⟩
  · rw [nodeIds_eq_range hg, hsize]
  · exact ⟨number_of_getElem? hn, pictures_of_ofForest hg (List.mem_of_getElem? hn)⟩
  · rw [length_edges hg, hsize]

theorem graph_of_reconstruct_of_nested :
    let p : Program := [.instruction (.pushNumber (.int 1) .null),
      .instruction (.pushNumber (.int 2) .null), .instruction (.pushNumber (.int 3) .null),
      .instruction (.invoke blockOpen .null), .instruction (.pushText "x" .null),
      .instruction (.invoke blockClose .null), .instruction (.invoke "+" .null)]
    let forest : List Expr := [.literal .number (.number (.int 1)) .null,
      .call "+" 2 1 .null [.literal .number (.number (.int 2)) .null,
        .literal .number (.number (.int 3)) .null,
        .block 0 1 .null [.literal .text (.text "x") .null]]]
    (reconstruct .builtin p).outcome = .ok forest ∧
      (postorderAll forest).map origin? = (p.filter (!·.isOpen)).map some ∧
      walk forest = (nodes forest).map (fun s => (s.2, parentNumber? forest s.1)) ∧
      ∃ g, ofForest forest = .ok g ∧
        g.nodeIds = (List.range (p.countP (!·.isOpen))).map nodeId ∧
        (∀ n s, (nodes forest)[n]? = some s → number forest s.1 = n ∧ g.Pictures forest s) ∧
        g.edges.length + forest.length = p.countP (!·.isOpen) ∧
        g.shapes = forest.map shape := by
  intro p forest
  have h : (reconstruct .builtin p).outcome = .ok forest := rfl
  exact ⟨h, graph_of_reconstruct h⟩

end StackForest
