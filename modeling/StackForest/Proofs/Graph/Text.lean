import StackForest.Analysis
import StackForest.Proofs.Graph
import StackForest.Proofs.Graph.Label
import StackForest.Proofs.Text.Run

/-!
# The text of a graph

Each statement of a graph has a line of its own, and each label can be read off its line
(`legible_of_analysis`).
-/

namespace StackForest

open StackForest.Expr ShiftReduce

namespace Graph

/-! ## Lines -/

theorem splitOn_lines {ls : List (List Char)} (h : ∀ l ∈ ls, '\n' ∉ l) :
    (ls.flatMap (· ++ ['\n'])).splitOn '\n' = ls ++ [[]] := by
  induction ls with
  | nil => rfl
  | cons l ls ih =>
    rw [List.forall_mem_cons] at h
    have hl : ∀ c ∈ l, (c == '\n') = false := by
      intro c hc
      rw [beq_eq_false_iff_ne]
      rintro rfl
      exact h.1 hc
    rw [List.flatMap_cons, List.append_assoc, List.singleton_append, List.splitOn_eq_splitOnP,
      List.splitOnP_append_cons_of_forall_mem hl _ rfl, ← List.splitOn_eq_splitOnP, ih h.2]
    rfl

theorem toList_render (g : Graph) :
    g.render.toList = (g.lines.map String.toList).flatMap (· ++ ['\n']) := by
  rw [render, String.toList_join, List.flatMap_map, List.flatMap_map]
  simp

def isLine (s : String) : Bool := !s.toList.contains '\n'

theorem isLine_iff {s : String} : isLine s = true ↔ '\n' ∉ s.toList := by
  simp [isLine]

theorem isLine_append {s t : String} :
    isLine (s ++ t) = true ↔ isLine s = true ∧ isLine t = true := by
  simp [isLine_iff]

theorem isLine_ofList {cs : List Char} : isLine (.ofList cs) = true ↔ '\n' ∉ cs := by
  simp [isLine_iff]

theorem isLine_setting {s : String × String} :
    isLine (setting s) = true ↔ isLine s.1 = true ∧ isLine s.2 = true := by
  have heq : isLine "=" = true := by decide
  simp only [setting, isLine_append, heq, and_true]

theorem isLine_intercalate {sep : String} (hsep : isLine sep = true) :
    ∀ {ss : List String}, (∀ s ∈ ss, isLine s = true) → isLine (sep.intercalate ss) = true
  | [], _ => by
    rw [String.intercalate_nil]
    decide
  | [s], h => by
    rw [String.intercalate_singleton]
    exact h s (.head _)
  | s :: t :: ss, h => by
    rw [List.forall_mem_cons] at h
    rw [String.intercalate_cons_cons, isLine_append, isLine_append]
    exact ⟨⟨h.1, hsep⟩, isLine_intercalate hsep h.2⟩

/-! ## Names of nodes -/

def isName (id : String) : Bool := id.toList.all Char.isAlphanum

theorem isName_append_repr {letter : String} (h : isName letter = true) (n : Nat) :
    isName (letter ++ n.repr) = true := by
  rw [isName, List.all_eq_true] at h ⊢
  intro c hc
  rw [String.toList_append, List.mem_append, Nat.toList_repr] at hc
  rcases hc with hc | hc
  · exact h c hc
  · have hdigit : c.isDigit = true := Nat.isDigit_of_mem_toDigits (by decide) (by decide) hc
    rw [Char.isAlphanum, hdigit, Bool.or_true]

theorem not_mem_of_isName {id : String} (h : isName id = true) {c : Char}
    (hc : c.isAlphanum = false) : c ∉ id.toList := by
  intro hmem
  rw [isName, List.all_eq_true] at h
  rw [h c hmem] at hc
  cases hc

theorem isLine_of_isName {id : String} (h : isName id = true) : isLine id = true :=
  isLine_iff.mpr (not_mem_of_isName h (by decide))

theorem isName_nodeId (n : Nat) : isName (nodeId n) = true := isName_append_repr (by decide) n

theorem isName_instructionId (n : Nat) : isName (instructionId n) = true :=
  isName_append_repr (by decide) n

/-! ## Labelled statements -/

/-- Statements with the labels of their nodes: a node has its label first, and nothing else in a
statement takes more than a line. -/
inductive Labelled : List (List Char) → List Statement → Prop
  | nil : Labelled [] []
  | node {id : String} {attributes label labels ss} : isName id = true →
    (∀ a ∈ attributes, isLine (setting a) = true) → Labelled labels ss →
    Labelled (label :: labels)
      (.node id (("label", .ofList (quoteLabel label)) :: attributes) :: ss)
  | edge {source target : String} {labels ss} : isName source = true → isName target = true →
    Labelled labels ss → Labelled labels (.edge source target :: ss)

theorem exists_render_node (id : String) (label : List Char)
    (attributes : List (String × String)) :
    ∃ rest, (Statement.node id
      (("label", .ofList (quoteLabel label)) :: attributes)).render.toList =
        (id ++ " [label=").toList ++ quoteLabel label ++ rest := by
  have hlabel : (setting ("label", .ofList (quoteLabel label))).toList =
      "label=".toList ++ quoteLabel label := by
    simp [setting]
  have hsettings : ∃ rest, (", ".intercalate
      ((("label", .ofList (quoteLabel label)) :: attributes).map setting)).toList =
        "label=".toList ++ quoteLabel label ++ rest := by
    cases attributes with
    | nil =>
      refine ⟨[], ?_⟩
      rw [List.map_cons, List.map_nil, String.intercalate_singleton, hlabel, List.append_nil]
    | cons a attributes =>
      refine ⟨", ".toList ++ (", ".intercalate (setting a :: attributes.map setting)).toList, ?_⟩
      rw [List.map_cons, List.map_cons, String.intercalate_cons_cons, String.toList_append,
        String.toList_append, hlabel, List.append_assoc (_ ++ _)]
  obtain ⟨rest, hrest⟩ := hsettings
  refine ⟨rest ++ "];".toList, ?_⟩
  simp only [Statement.render, String.toList_append, hrest, List.append_assoc]
  simp

theorem isLine_render {labels : List (List Char)} {ss : List Statement} (h : Labelled labels ss) :
    ∀ s ∈ ss, isLine s.render = true := by
  induction h with
  | nil => simp
  | @node id attributes label _ _ hid hattributes _ ih =>
    rw [List.forall_mem_cons]
    refine ⟨?_, ih⟩
    have hlabel : isLine (setting ("label", .ofList (quoteLabel label))) = true :=
      isLine_setting.mpr ⟨(by decide : isLine "label" = true),
        isLine_ofList.mpr (lineFeed_not_mem_quoteLabel label)⟩
    have hsettings : isLine (", ".intercalate
        ((("label", .ofList (quoteLabel label)) :: attributes).map setting)) = true :=
      isLine_intercalate (by decide)
        (List.forall_mem_map.mpr (List.forall_mem_cons.mpr ⟨hlabel, hattributes⟩))
    simp only [Statement.render, isLine_append]
    exact ⟨⟨⟨isLine_of_isName hid, by decide⟩, hsettings⟩, by decide⟩
  | edge hsource htarget _ ih =>
    rw [List.forall_mem_cons]
    refine ⟨?_, ih⟩
    simp only [Statement.render, isLine_append]
    exact ⟨⟨⟨isLine_of_isName hsource, by decide⟩, isLine_of_isName htarget⟩, by decide⟩

theorem quotedIn_render {labels : List (List Char)} {ss : List Statement} (h : Labelled labels ss) :
    (ss.filter Statement.isNode).map (fun s => quotedIn s.render.toList) =
      labels.map fun label => some (quoteLabel label) := by
  induction h with
  | nil => rfl
  | @node id attributes label _ _ hid hattributes _ ih =>
    obtain ⟨rest, hrest⟩ := exists_render_node id label attributes
    rw [List.filter_cons_of_pos rfl, List.map_cons, List.map_cons, ih, hrest]
    congr 1
    have hfront : '"' ∉ (id ++ " [label=").toList := by
      rw [String.toList_append, List.mem_append, not_or]
      exact ⟨not_mem_of_isName hid (by decide), by decide⟩
    exact quotedIn_quoteLabel hfront label rest
  | edge hsource htarget _ ih =>
    rw [List.filter_cons_of_neg (by simp), ih]

theorem isLine_color (e : Expr) : isLine (color e) = true := by
  unfold color
  split <;> decide

theorem labelled_of_draws {n : Nat} {nodes : List (Expr × Option Nat)} {labels : List (List Char)}
    {ss : List Statement} (h : Draws n nodes labels ss) : Labelled labels ss := by
  induction h with
  | nil => exact .nil
  | @cons n e label _ labels ss parent _ _ ih =>
    have htail : Labelled labels (edgeStatements n parent ++ ss) := by
      cases parent with
      | none => exact ih
      | some p => exact .edge (isName_nodeId p) (isName_nodeId n) ih
    refine .node (isName_nodeId n) ?_ htail
    have hshape : isLine (if e.children.isEmpty then "ellipse" else "box") = true := by
      split <;> decide
    have hcolor : isLine ("\"" ++ color e ++ "\"") = true := by
      simp only [isLine_append, isLine_color, and_true]
      decide
    simp only [List.forall_mem_cons, isLine_setting, hshape, hcolor, and_true]
    decide

theorem labelled_of_programStatements (is : List Instruction) : ∀ (index : Nat) {ss},
    programStatements index (is.map .instruction) = .ok ss →
      Labelled ((is.zipIdx index).map fun i => instructionLabel i.2 i.1) ss := by
  induction is with
  | nil =>
    intro index ss h
    cases h
    exact .nil
  | cons i is ih =>
    intro index ss h
    obtain ⟨tail, htail, rfl⟩ := map_eq_ok_iff.mp h
    have hlabelled := ih (index + 1) htail
    rw [List.zipIdx_cons, List.map_cons]
    refine .node (isName_instructionId index) ?_ ?_
    · simp only [List.forall_mem_cons, isLine_setting]
      decide
    · split
      · exact hlabelled
      · exact .edge (isName_instructionId _) (isName_instructionId index) hlabelled

/-! ## Texts -/

/-- What a reader of a graph's text sees: a line for each statement between three lines in front
and one behind, and on the line of each node its label, in quotes. -/
structure Legible (g : Graph) (labels : List (List Char)) : Prop where
  lines : g.render.toList.splitOn '\n' = g.lines.map String.toList ++ [[]]
  statements : ∃ front : List String, front.length = 3 ∧
    g.lines = front ++ g.statements.map Statement.render ++ ["\x7d"]
  length : g.lines.length = 4 + g.nodeCount + g.edgeCount
  labels : (g.statements.filter Statement.isNode).map (fun s => quotedIn s.render.toList) =
    labels.map fun label => some (quoteLabel label)

theorem legible_of_labelled {g : Graph} {labels : List (List Char)} (hname : isLine g.name = true)
    (hsettings : ∀ s ∈ g.settings, isLine (setting s) = true) (hlength : g.settings.length = 2)
    (h : Labelled labels g.statements) : Legible g labels := by
  have hline : ∀ l ∈ g.lines, isLine l = true := by
    simp only [Graph.lines, List.forall_mem_append, List.forall_mem_cons, List.forall_mem_map,
      isLine_append]
    exact ⟨⟨⟨⟨⟨by decide, hname⟩, by decide⟩, fun s hs => ⟨hsettings s hs, by decide⟩⟩,
      isLine_render h⟩, by decide, by simp⟩
  have hcount : g.statements.length = g.nodeCount + g.edgeCount := by
    rw [List.length_eq_countP_add_countP Statement.isNode]
    simp [nodeCount, edgeCount]
  refine ⟨?_, ⟨_, ?_, rfl⟩, ?_, quotedIn_render h⟩
  · rw [toList_render]
    exact splitOn_lines (List.forall_mem_map.mpr fun l hl => isLine_iff.mp (hline l hl))
  · rw [List.length_cons, List.length_map, hlength]
  · simp only [Graph.lines, List.length_append, List.length_cons, List.length_map,
      List.length_nil, hlength]
    omega

theorem legible_of_draws {n : Nat} {nodes : List (Expr × Option Nat)} {labels : List (List Char)}
    {ss : List Statement} (h : Draws n nodes labels ss) :
    Legible ⟨"syntax_tree", [("rankdir", "TB"), ("fontname", "Helvetica")], ss⟩ labels := by
  refine legible_of_labelled ?_ ?_ rfl (labelled_of_draws h)
  · change isLine "syntax_tree" = true
    decide
  · simp only [List.forall_mem_cons, isLine_setting]
    decide

theorem labels_of_draws {n : Nat} {nodes : List (Expr × Option Nat)} {labels : List (List Char)}
    {ss : List Statement} (h : Draws n nodes labels ss) :
    List.Forall₂ (fun node label => expressionLabel node.1 = .ok label) nodes labels := by
  induction h with
  | nil => exact .nil
  | cons _ hlabel _ ih => exact .cons hlabel ih

theorem counts_of_programStatements (is : List Instruction) : ∀ (index : Nat) {ss},
    programStatements index (is.map .instruction) = .ok ss →
      ss.countP Statement.isNode = is.length ∧
        ss.countP (!·.isNode) = if index = 0 then is.length - 1 else is.length := by
  induction is with
  | nil =>
    intro index ss h
    cases h
    simp
  | cons i is ih =>
    intro index ss h
    obtain ⟨tail, htail, rfl⟩ := map_eq_ok_iff.mp h
    obtain ⟨hnodes, hedges⟩ := ih (index + 1) htail
    by_cases h0 : index = 0
    · simp [instructionStatements, List.countP_cons, h0, hnodes, hedges]
    · simp [instructionStatements, List.countP_cons, h0, hnodes, hedges]

end Graph

theorem exists_instructions {table : Table} {p : Program} (h : ∀ e ∈ p, e.isKnown table = true) :
    ∃ is : List Instruction, p = is.map .instruction := by
  induction p with
  | nil => exact ⟨[], rfl⟩
  | cons e p ih =>
    rw [List.forall_mem_cons] at h
    obtain ⟨is, rfl⟩ := ih h.2
    cases e with
    | instruction i => exact ⟨i :: is, rfl⟩
    | foreign v => cases h.1

open StackForest.Graph

/-- **Texts of graphs.** Both graphs of a program have texts with a line for each statement, and
the label of each node is read off its line, whatever characters it has. -/
theorem legible_of_analysis {table : Table} {p : Program} {a : Analysis}
    (h : Analysis.ofProgram table p = .ok a) :
    ∃ (is : List Instruction) (g g' : Graph) (labels : List (List Char)),
      p = is.map .instruction ∧
      a.forestGraph = .ok g ∧ Legible g labels ∧
      List.Forall₂ (fun node label => expressionLabel node.1 = .ok label) (walk a.forest) labels ∧
      a.programGraph = .ok g' ∧
      Legible g' ((is.zipIdx).map fun i => instructionLabel i.2 i.1) ∧
      g'.lines.length = 4 + p.length + (p.length - 1) := by
  obtain ⟨forest, hforest, rfl⟩ := map_eq_ok_iff.mp h
  obtain ⟨is, rfl⟩ := exists_instructions (known_of_reconstruct hforest)
  obtain ⟨s, hs, rfl⟩ := exists_run_of_reconstruct hforest
  obtain ⟨g, hg⟩ := exists_ofForest (wellFormedAll_of_run hs)
  obtain ⟨labels, ss, hdraws, rfl⟩ := draws_of_ofForest hg
  obtain ⟨g', hg'⟩ := exists_ofProgram is
  obtain ⟨ss', hss', rfl⟩ := map_eq_ok_iff.mp hg'
  have hlegible : Legible ⟨"program_list", [("rankdir", "LR"), ("fontname", "Helvetica")], ss'⟩
      ((is.zipIdx).map fun i => instructionLabel i.2 i.1) := by
    refine legible_of_labelled ?_ ?_ rfl (labelled_of_programStatements is 0 hss')
    · change isLine "program_list" = true
      decide
    · simp only [List.forall_mem_cons, isLine_setting]
      decide
  refine ⟨is, _, _, labels, rfl, hg, legible_of_draws hdraws, labels_of_draws hdraws, hg', hlegible,
    ?_⟩
  obtain ⟨hnodes, hedges⟩ := counts_of_programStatements is 0 hss'
  rw [hlegible.length, nodeCount, edgeCount, hnodes, hedges, if_pos rfl, List.length_map]

theorem legible_of_analysis_of_escaped :
    let table := Table.extend [("\"\\\n", ⟨["any"], []⟩)]
    let label : Value := .list [.text "'\"\n", .null]
    let p : Program := [.instruction (.pushText "\\\"\n\\" (.text "\n\\\"")),
      .instruction (.invoke "\"\\\n" label)]
    let a : Analysis := ⟨p, [.call "\"\\\n" 1 0 label
      [.literal .text (.text "\\\"\n\\") (.text "\n\\\"")]]⟩
    Analysis.ofProgram table p = .ok a ∧
      ∃ (is : List Instruction) (g g' : Graph) (labels : List (List Char)),
        p = is.map .instruction ∧ a.forestGraph = .ok g ∧ Legible g labels ∧
        List.Forall₂ (fun node label => expressionLabel node.1 = .ok label) (walk a.forest) labels ∧
        a.programGraph = .ok g' ∧
        Legible g' ((is.zipIdx).map fun i => instructionLabel i.2 i.1) ∧
        g'.lines.length = 4 + p.length + (p.length - 1) := by
  intro table label p a
  have h : Analysis.ofProgram table p = .ok a := rfl
  exact ⟨h, legible_of_analysis h⟩

end StackForest
