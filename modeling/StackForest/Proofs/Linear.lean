import StackForest.Proofs.PostOrder

/-!
# Linear code

A forest written as a program: the code of the children in front of that of their parent, a block
between its braces. `reconstruct_linearize` reads every well-formed forest back.
-/

namespace StackForest

open ShiftReduce

namespace Expr

mutual
def linearize : Expr → Program
  | call name _ _ l es => linearizeAll es ++ [.instruction (.invoke name l)]
  | block _ _ l es => openEntry :: linearizeAll es ++ [.instruction (.invoke blockClose l)]
  | e => (origin? e).toList
def linearizeAll : List Expr → Program
  | [] => []
  | e :: es => linearize e ++ linearizeAll es
end

mutual
/-- Whether a tree has literals of the right kind, calls with the effects and operands that the
table gives them, and blocks with the effects of their children. -/
def wellFormed (table : Table) : Expr → Bool
  | call name c p _ es =>
    name != blockOpen && name != blockClose &&
      (table.lookup? name).any (fun effect => effect.consumes == c && effect.produces == p) &&
      isOperands c es && wellFormedAll table es
  | block c p _ es => c == totalConsumes es && p == totalProduces es && wellFormedAll table es
  | e => (origin? e).isSome
def wellFormedAll (table : Table) : List Expr → Bool
  | [] => true
  | e :: es => wellFormed table e && wellFormedAll table es
end

theorem linearizeAll_append : ∀ es fs : List Expr,
    linearizeAll (es ++ fs) = linearizeAll es ++ linearizeAll fs
  | [], fs => rfl
  | e :: es, fs => by simp [linearizeAll, linearizeAll_append es fs]

theorem wellFormedAll_append (table : Table) : ∀ es fs : List Expr,
    wellFormedAll table (es ++ fs) = (wellFormedAll table es && wellFormedAll table fs)
  | [], fs => rfl
  | e :: es, fs => by simp [wellFormedAll, wellFormedAll_append table es fs, Bool.and_assoc]

theorem wellFormedAll_iff {table : Table} {es : List Expr} :
    wellFormedAll table es = true ↔ ∀ e ∈ es, wellFormed table e = true := by
  induction es with
  | nil => simp [wellFormedAll]
  | cons e es ih => rw [wellFormedAll, Bool.and_eq_true, ih, List.forall_mem_cons]

theorem wellFormedAll_children {table : Table} {e : Expr} (h : wellFormed table e = true) :
    wellFormedAll table e.children = true := by
  cases e with
  | call name c p l es =>
    simp only [wellFormed, Bool.and_eq_true] at h
    exact h.2
  | block c p l es =>
    simp only [wellFormed, Bool.and_eq_true] at h
    exact h.2
  | _ => rfl

theorem wellFormed_of_node {table : Table} {b : Expr} (e : Expr) (h : wellFormed table e = true) :
    b ∈ postorder e → wellFormed table b = true := by
  induction e using induction_on with
  | h e ih =>
    intro hb
    rw [postorder_eq, List.mem_append, List.mem_singleton] at hb
    rcases hb with hb | rfl
    · obtain ⟨c, hc, hb⟩ := mem_postorderAll.mp hb
      exact ih c hc (wellFormedAll_iff.mp (wellFormedAll_children h) c hc) hb
    · exact h

theorem linearizeAll_of_mem {e : Expr} {es : List Expr} (h : e ∈ es) :
    ∃ u v, linearizeAll es = u ++ linearize e ++ v := by
  obtain ⟨fs, gs, rfl⟩ := List.append_of_mem h
  exact ⟨linearizeAll fs, linearizeAll gs, by simp [linearizeAll_append, linearizeAll]⟩

theorem linearize_of_node {b : Expr} (e : Expr) :
    b ∈ postorder e → ∃ u v, linearize e = u ++ linearize b ++ v := by
  induction e using induction_on with
  | h e ih =>
    intro hb
    rw [postorder_eq, List.mem_append, List.mem_singleton] at hb
    rcases hb with hb | rfl
    · obtain ⟨c, hc, hb⟩ := mem_postorderAll.mp hb
      obtain ⟨u, v, huv⟩ := ih c hc hb
      obtain ⟨x, y, hxy⟩ := linearizeAll_of_mem hc
      cases e with
      | call name k p l es =>
        exact ⟨x ++ u, v ++ y ++ [.instruction (.invoke name l)], by
          simp only [children] at hxy; simp [linearize, hxy, huv]⟩
      | block k p l es =>
        exact ⟨openEntry :: (x ++ u), v ++ y ++ [.instruction (.invoke blockClose l)], by
          simp only [children] at hxy; simp [linearize, hxy, huv]⟩
      | _ => cases hc
    · exact ⟨[], [], by simp⟩

theorem node_of_forest {table : Table} {b : Expr} {es : List Expr}
    (h : wellFormedAll table es = true) (hb : b ∈ postorderAll es) :
    wellFormed table b = true ∧ ∃ u v, linearizeAll es = u ++ (linearize b ++ v) := by
  obtain ⟨e, he, hb⟩ := mem_postorderAll.mp hb
  obtain ⟨x, y, hxy⟩ := linearizeAll_of_mem he
  obtain ⟨u, v, huv⟩ := linearize_of_node e hb
  exact ⟨wellFormed_of_node e (wellFormedAll_iff.mp h e he) hb, x ++ u, v ++ y, by
    simp [hxy, huv]⟩

end Expr

open StackForest.Expr

/-! ## Reading code -/

def pushAll : List Expr → List Item → List Item
  | [], s => s
  | e :: es, s => pushAll es (.tree e :: s)

theorem pushAll_snoc : ∀ (es : List Expr) (e : Expr) (s : List Item),
    pushAll (es ++ [e]) s = .tree e :: pushAll es s
  | [], _, _ => rfl
  | f :: es, e, s => pushAll_snoc es e (.tree f :: s)

theorem trees_pushAll : ∀ (es : List Expr) (s : List Item), trees (pushAll es s) = trees s ++ es
  | [], s => by simp [pushAll]
  | e :: es, s => by simp [pushAll, trees_pushAll es, trees]

theorem popBlock_pushAll (es fs : List Expr) (s : List Item) :
    popBlock (pushAll es (.mark :: s)) fs = some (es ++ fs, s) := by
  induction es using List.reverseRecOn generalizing fs with
  | nil => rfl
  | append_singleton es e ih => rw [pushAll_snoc, popBlock, ih, List.append_assoc]; rfl

theorem popOperands_pushAll (es : List Expr) : ∀ (k : Nat) (fs : List Expr) (s : List Item),
    isOperands k es = true → popOperands k (pushAll es s) fs = some (es ++ fs, s) := by
  induction es using List.reverseRecOn with
  | nil =>
    intro k fs s h
    cases k with
    | zero => simp [pushAll, popOperands]
    | succ k => simp [isOperands] at h
  | append_singleton es e ih =>
    intro k fs s h
    cases k with
    | zero => rw [not_isOperands_zero] at h; cases h
    | succ k =>
      rw [pushAll_snoc, popOperands, List.append_assoc]
      cases he : e.isBlock with
      | true =>
        rw [isOperands_snoc_block he] at h
        exact ih _ _ s h
      | false =>
        rw [isOperands_snoc_operand he] at h
        exact ih _ _ s h

section
variable {table : Table}

mutual
theorem run_linearize : ∀ {e : Expr}, wellFormed table e = true →
    ∀ (index : Nat) (p : Program) (s : List Item), run table index (linearize e ++ p) s =
      run table (index + (linearize e).length) p (.tree e :: s)
  | .literal .number (.number n) l, _, index, p, s => rfl
  | .literal .text (.text t) l, _, index, p, s => rfl
  | .block c q l es, h, index, p, s => by
    simp only [wellFormed, Bool.and_eq_true, beq_iff_eq] at h
    obtain ⟨⟨rfl, rfl⟩, hes⟩ := h
    simp only [linearize, List.cons_append, List.append_assoc, run, step, openEntry, if_true,
      Except.bind]
    rw [run_linearizeAll hes]
    simp only [run, step, open_ne_close.symm, if_false, if_true, popBlock_pushAll, Except.bind,
      List.append_nil, ofChildren]
    congr 1
    simp; omega
  | .call name c q l es, h, index, p, s => by
    simp only [wellFormed, Bool.and_eq_true, bne_iff_ne, Option.any_eq_true, beq_iff_eq] at h
    obtain ⟨⟨⟨⟨ho, hc⟩, effect, hl, rfl, rfl⟩, hk⟩, hes⟩ := h
    rw [linearize, List.append_assoc, run_linearizeAll hes]
    simp only [List.singleton_append, run, step, ho, hc, if_false, hl,
      popOperands_pushAll es _ _ _ hk, Except.bind, List.append_nil]
    congr 1
    simp; omega
theorem run_linearizeAll : ∀ {es : List Expr}, wellFormedAll table es = true →
    ∀ (index : Nat) (p : Program) (s : List Item), run table index (linearizeAll es ++ p) s =
      run table (index + (linearizeAll es).length) p (pushAll es s)
  | [], _, index, p, s => rfl
  | e :: es, h, index, p, s => by
    simp only [wellFormedAll, Bool.and_eq_true] at h
    rw [linearizeAll, List.append_assoc, run_linearize h.1, run_linearizeAll h.2, pushAll,
      List.length_append, Nat.add_assoc]
end

mutual
theorem known_of_linearize : ∀ {e : Expr}, wellFormed table e = true →
    ∀ x ∈ linearize e, x.isKnown table = true
  | .literal .number (.number n) l, _ => by simp [linearize, origin?, Entry.isKnown]
  | .literal .text (.text t) l, _ => by simp [linearize, origin?, Entry.isKnown]
  | .block c q l es, h => by
    simp only [wellFormed, Bool.and_eq_true] at h
    intro x hx
    simp only [linearize, List.cons_append, List.mem_cons, List.mem_append,
      List.not_mem_nil, or_false] at hx
    rcases hx with rfl | hx | rfl
    · rfl
    · exact known_of_linearizeAll h.2 x hx
    · rfl
  | .call name c q l es, h => by
    simp only [wellFormed, Bool.and_eq_true, Option.any_eq_true] at h
    obtain ⟨⟨⟨_, effect, hl, _⟩, _⟩, hes⟩ := h
    intro x hx
    rcases List.mem_append.mp hx with hx | hx
    · exact known_of_linearizeAll hes x hx
    · rw [List.mem_singleton.mp hx]
      simp [Entry.isKnown, hl]
theorem known_of_linearizeAll : ∀ {es : List Expr}, wellFormedAll table es = true →
    ∀ x ∈ linearizeAll es, x.isKnown table = true
  | [], _ => by simp [linearizeAll]
  | e :: es, h => by
    simp only [wellFormedAll, Bool.and_eq_true] at h
    intro x hx
    rcases List.mem_append.mp hx with hx | hx
    · exact known_of_linearize h.1 x hx
    · exact known_of_linearizeAll h.2 x hx
end

theorem outcome_linearizeAll {forest : List Expr} (h : wellFormedAll table forest = true) :
    (reconstruct table (linearizeAll forest)).outcome = .ok forest := by
  rw [reconstruct_eq_run (known_of_linearizeAll h)]
  have hr := run_linearizeAll h 0 [] []
  rw [List.append_nil] at hr
  rw [hr, run, Except.map, trees_pushAll]
  rfl

/-- **Round trip.** A well-formed forest is what its code stands for. -/
theorem reconstruct_linearize {forest : List Expr} (h : wellFormedAll table forest = true) :
    (reconstruct table (linearizeAll forest)).outcome = .ok forest :=
  outcome_linearizeAll h

theorem reconstruct_linearize_of_nested :
    let forest : List Expr := [.block 2 1 (.text "a") [.call "+" 2 1 .null
      [.literal .number (.number (.int 1)) .null, .block 0 0 .null [],
        .literal .number (.number (.int 2)) (.text "b"),
        .block 0 1 .null [.literal .text (.text "x") .null]]]]
    wellFormedAll .builtin forest = true ∧
      (reconstruct .builtin (linearizeAll forest)).outcome = .ok forest := by
  intro forest
  have h : wellFormedAll .builtin forest = true := by decide
  exact ⟨h, reconstruct_linearize h⟩

/-! ## Forests of programs -/

theorem wellFormedAll_of_run {p : Program} {s : List Item} (h : run table 0 p [] = .ok s) :
    wellFormedAll table (trees s) = true := by
  refine run_induction (P := fun _ s => wellFormedAll table (trees s) = true) rfl ?_ h
  intro p e s r ih hs
  cases hs with
  | number => simp [trees, wellFormedAll_append, wellFormedAll, wellFormed, origin?, ih]
  | text => simp [trees, wellFormedAll_append, wellFormedAll, wellFormed, origin?, ih]
  | opening => exact ih
  | closing hm =>
    rw [trees_append, wellFormedAll_append, Bool.and_eq_true] at ih
    simp only [trees] at ih
    simp [trees, wellFormedAll_append, wellFormedAll, ofChildren, wellFormed, ih.1, ih.2]
  | opcode ho hc hl ht =>
    rw [trees_append, wellFormedAll_append, Bool.and_eq_true] at ih
    simp [trees, wellFormedAll_append, wellFormedAll, wellFormed, ho, hc, hl, ht, ih.1, ih.2]

end

end StackForest
