import StackForest.Proofs.Analysis

/-!
# The nodes of a forest

What each kind of node has in the forest of a program, at any depth (`conforms_of_reconstruct`).
-/

namespace StackForest

open ShiftReduce

namespace Expr

/-! ## Blocks taken apart -/

mutual
/-- The tree itself unless it is a block, and otherwise what its children are taken apart into. -/
def unblock : Expr → List Expr
  | block _ _ _ es => unblockAll es
  | e => [e]
def unblockAll : List Expr → List Expr
  | [] => []
  | e :: es => unblock e ++ unblockAll es
end

theorem totalConsumes_append (es fs : List Expr) :
    totalConsumes (es ++ fs) = totalConsumes es + totalConsumes fs := by
  induction es with
  | nil => simp [totalConsumes]
  | cons e es ih => simp [totalConsumes, ih, Int.add_assoc]

theorem totalProduces_append (es fs : List Expr) :
    totalProduces (es ++ fs) = totalProduces es + totalProduces fs := by
  induction es with
  | nil => simp [totalProduces]
  | cons e es ih => simp [totalProduces, ih, Int.add_assoc]

mutual
theorem totals_unblock {table : Table} : ∀ {e : Expr}, wellFormed table e = true →
    totalConsumes (unblock e) = e.consumes ∧ totalProduces (unblock e) = e.produces
  | literal _ _ _, _ => by simp [unblock, totalConsumes, totalProduces]
  | call _ _ _ _ _, _ => by simp [unblock, totalConsumes, totalProduces]
  | bare _ _ _ _, _ => by simp [unblock, totalConsumes, totalProduces]
  | block c p l es, h => by
    simp only [wellFormed, Bool.and_eq_true, beq_iff_eq] at h
    obtain ⟨⟨rfl, rfl⟩, hes⟩ := h
    exact totals_unblockAll hes
theorem totals_unblockAll {table : Table} : ∀ {es : List Expr}, wellFormedAll table es = true →
    totalConsumes (unblockAll es) = totalConsumes es ∧
      totalProduces (unblockAll es) = totalProduces es
  | [], _ => ⟨rfl, rfl⟩
  | e :: es, h => by
    rw [wellFormedAll, Bool.and_eq_true] at h
    have he := totals_unblock h.1
    have hes := totals_unblockAll h.2
    simp only [unblockAll, totalConsumes_append, totalProduces_append, he, hes, totalConsumes,
      totalProduces, and_self]
end

/-! ## Kinds of nodes -/

/-- What a node has by its kind; a forest has no node without one. -/
def Conforms (table : Table) (e : Expr) : Prop :=
  match e with
  | literal _ _ _ => e.consumes = 0 ∧ e.produces = 1 ∧ e.children = []
  | call name _ _ _ es =>
    name ≠ blockOpen ∧ name ≠ blockClose ∧ ∃ effect fields,
      table.lookup? name = some effect ∧
      e.consumes = effect.inputs.length ∧ e.produces = effect.outputs.length ∧
      es.countP (!·.isBlock) = effect.inputs.length ∧
      (0 < effect.inputs.length → ∃ first ∈ es.head?, first.isBlock = false) ∧
      (effect.inputs.length = 0 → es = []) ∧
      e.toValue = .dict fields ∧
      Fields.get? "children_consumes" fields = some (.int (totalConsumes es)) ∧
      Fields.get? "children_produces" fields = some (.int (totalProduces es))
  | block _ _ _ es =>
    e.value = .text "\x7b\x7d" ∧ e.consumes = totalConsumes (unblockAll es) ∧
      e.produces = totalProduces (unblockAll es)
  | bare _ _ _ _ => False

theorem exists_head?_of_isOperands {k : Nat} {es : List Expr} (h : isOperands k es = true)
    (hk : 0 < k) : ∃ first ∈ es.head?, first.isBlock = false := by
  rw [isOperands, if_neg (by omega), Bool.and_eq_true, Option.any_eq_true] at h
  obtain ⟨first, hfirst, hblock⟩ := h.2
  exact ⟨first, hfirst, by simpa using hblock⟩

theorem eq_nil_of_isOperands {es : List Expr} (h : isOperands 0 es = true) : es = [] := by
  rw [isOperands, if_pos rfl, Bool.and_eq_true, List.isEmpty_iff] at h
  exact h.2

theorem get?_childFields {e : Expr} {f : String × Value} (hf : f ∈ e.childFields) :
    Fields.get? f.1 e.fields = some f.2 := by
  refine Fields.get?_of_mem (nodup_fields e) ?_
  simp [fields, hf]

theorem conforms_of_wellFormed {table : Table} {e : Expr} (h : wellFormed table e = true) :
    e.Conforms table := by
  cases e with
  | literal _ _ _ => exact ⟨rfl, rfl, rfl⟩
  | bare _ _ _ _ => cases h
  | block c p l es =>
    have hwf := h
    simp only [wellFormed, Bool.and_eq_true, beq_iff_eq] at hwf
    obtain ⟨⟨rfl, rfl⟩, hes⟩ := hwf
    obtain ⟨hconsumes, hproduces⟩ := totals_unblockAll hes
    exact ⟨rfl, hconsumes.symm, hproduces.symm⟩
  | call name c p l es =>
    simp only [wellFormed, Bool.and_eq_true, bne_iff_ne, Option.any_eq_true, beq_iff_eq] at h
    obtain ⟨⟨⟨⟨hopen, hclose⟩, effect, hlookup, rfl, rfl⟩, hes⟩, -⟩ := h
    have hcount := (Bool.and_eq_true_iff.mp hes).1
    refine ⟨hopen, hclose, effect, _, hlookup, rfl, rfl, beq_iff_eq.mp hcount,
      exists_head?_of_isOperands hes, fun h0 => ?_, toValue_eq _, ?_, ?_⟩
    · rw [show effect.consumes = 0 from h0] at hes
      exact eq_nil_of_isOperands hes
    · exact get?_childFields (f := ("children_consumes", _)) (.tail _ (.head _))
    · exact get?_childFields (f := ("children_produces", _)) (.tail _ (.tail _ (.head _)))

end Expr

open StackForest.Expr

/-- **Nodes.** Every node of a program's forest, at any depth, has what its kind asks for. -/
theorem conforms_of_reconstruct {table : Table} {p : Program} {forest : List Expr}
    (h : (reconstruct table p).outcome = .ok forest) :
    ∀ e ∈ postorderAll forest, e.Conforms table := by
  obtain ⟨s, hs, rfl⟩ := exists_run_of_reconstruct h
  intro e he
  exact conforms_of_wellFormed (node_of_forest (wellFormedAll_of_run hs) he).1

theorem conforms_of_reconstruct_of_nested :
    let p : Program := [.instruction (.invoke blockOpen .null),
      .instruction (.invoke blockOpen .null), .instruction (.pushText "x" .null),
      .instruction (.invoke blockClose .null), .instruction (.pushNumber (.int 3) .null),
      .instruction (.invoke blockClose (.text "b")), .instruction (.pushNumber (.int 1) .null),
      .instruction (.invoke blockOpen .null), .instruction (.invoke blockClose .null),
      .instruction (.pushNumber (.int 2) .null), .instruction (.invoke "+" .null)]
    let x : Expr := .literal .text (.text "x") .null
    let three : Expr := .literal .number (.number (.int 3)) .null
    let outer : Expr := .block 0 2 (.text "b") [.block 0 1 .null [x], three]
    let sum : Expr := .call "+" 2 1 .null [.literal .number (.number (.int 1)) .null,
      .block 0 0 .null [], .literal .number (.number (.int 2)) .null]
    (reconstruct .builtin p).outcome = .ok [outer, sum] ∧ unblockAll outer.children = [x, three] ∧
      outer.Conforms .builtin ∧ sum.Conforms .builtin := by
  intro p x three outer sum
  have h : (reconstruct .builtin p).outcome = .ok [outer, sum] := rfl
  exact ⟨h, rfl, conforms_of_reconstruct h outer (by simp [postorderAll, postorder, outer]),
    conforms_of_reconstruct h sum (by simp [postorderAll, postorder, sum])⟩

end StackForest
