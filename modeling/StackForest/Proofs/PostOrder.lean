import StackForest.Expr.Walk
import StackForest.Proofs.Scan

/-!
# Post-order

The forest of a program, read with children in front of their parents, is the program without its
opening braces.
-/

namespace StackForest

open ShiftReduce

namespace Expr

mutual
def postorder : Expr → List Expr
  | call n c p l es => postorderAll es ++ [call n c p l es]
  | block c p l es => postorderAll es ++ [block c p l es]
  | e => [e]
def postorderAll : List Expr → List Expr
  | [] => []
  | e :: es => postorder e ++ postorderAll es
end

mutual
theorem induction_on {P : Expr → Prop} (h : ∀ e, (∀ c ∈ e.children, P c) → P e) : ∀ e, P e
  | call _ _ _ _ es => h _ (induction_all h es)
  | block _ _ _ es => h _ (induction_all h es)
  | literal _ _ _ => h _ fun _ hc => by cases hc
  | bare _ _ _ _ => h _ fun _ hc => by cases hc
theorem induction_all {P : Expr → Prop} (h : ∀ e, (∀ c ∈ e.children, P c) → P e) :
    ∀ es : List Expr, ∀ c ∈ es, P c
  | [] => by simp
  | e :: es => List.forall_mem_cons.mpr ⟨induction_on h e, induction_all h es⟩
end

theorem postorder_eq (e : Expr) : postorder e = postorderAll e.children ++ [e] := by
  cases e <;> simp [postorder, postorderAll, children]

theorem mem_postorderAll {b : Expr} {es : List Expr} :
    b ∈ postorderAll es ↔ ∃ e ∈ es, b ∈ postorder e := by
  induction es with
  | nil => simp [postorderAll]
  | cons e es ih => simp [postorderAll, ih]

/-- The entry that a node comes from. -/
def origin? : Expr → Option Entry
  | literal .number (.number n) l => some (.instruction (.pushNumber n l))
  | literal .text (.text t) l => some (.instruction (.pushText t l))
  | literal _ _ _ => none
  | call name _ _ l _ => some (.instruction (.invoke name l))
  | block _ _ l _ => some (.instruction (.invoke blockClose l))
  | bare _ _ _ _ => none

theorem postorderAll_append : ∀ es fs : List Expr,
    postorderAll (es ++ fs) = postorderAll es ++ postorderAll fs
  | [], fs => rfl
  | e :: es, fs => by simp [postorderAll, postorderAll_append es fs]

mutual
theorem length_postorder : ∀ e : Expr, (postorder e).length = size e
  | call _ _ _ _ es => by simp [postorder, size, length_postorderAll es]
  | block _ _ _ es => by simp [postorder, size, length_postorderAll es]
  | literal _ _ _ => rfl
  | bare _ _ _ _ => rfl
theorem length_postorderAll : ∀ es : List Expr, (postorderAll es).length = sizeAll es
  | [] => rfl
  | e :: es => by simp [postorderAll, sizeAll, length_postorder e, length_postorderAll es]
end

end Expr

open StackForest.Expr

theorem postorder_of_run {table : Table} {p : Program} {s : List Item}
    (h : run table 0 p [] = .ok s) :
    (postorderAll (trees s)).map origin? = (p.filter (!·.isOpen)).map some := by
  refine run_induction (P := fun p s =>
    (postorderAll (trees s)).map origin? = (p.filter (!·.isOpen)).map some) rfl ?_ h
  intro p e s r ih hs
  cases hs with
  | number => simp [trees, postorderAll_append, postorderAll, postorder, origin?, ih]
  | text => simp [trees, postorderAll_append, postorderAll, postorder, origin?, ih]
  | opening => simp [trees, ih]
  | closing hm =>
    rw [trees_append, postorderAll_append, List.map_append] at ih
    simp [trees, postorderAll_append, postorderAll, ofChildren, postorder, origin?,
      List.filter_cons, open_ne_close.symm, ← ih]
  | opcode ho hc hl ht =>
    rw [trees_append, postorderAll_append, List.map_append] at ih
    simp [trees, postorderAll_append, postorderAll, postorder, origin?, List.filter_cons, ho, ← ih]

theorem postorder_reconstruct {table : Table} {p : Program} {forest : List Expr}
    (h : (reconstruct table p).outcome = .ok forest) :
    (postorderAll forest).map origin? = (p.filter (!·.isOpen)).map some ∧
      sizeAll forest + p.countP Entry.isOpen = p.length := by
  obtain ⟨s, hs, rfl⟩ := exists_run_of_reconstruct h
  have hp := postorder_of_run hs
  refine ⟨hp, ?_⟩
  have hl := congrArg List.length hp
  simp only [List.length_map, length_postorderAll] at hl
  rw [hl, ← List.countP_eq_length_filter, List.length_eq_countP_add_countP Entry.isOpen (l := p)]
  simp [Nat.add_comm]

/-- Here the sum takes a block among its operands and reaches across a brace that stays open. -/
theorem postorder_reconstruct_of_crossing :
    let p : Program := [.instruction (.pushNumber (.int 1) (.text "a")),
      .instruction (.pushNumber (.int 2) .null), .instruction (.invoke blockOpen (.text "b")),
      .instruction (.pushText "x" .null), .instruction (.invoke blockClose (.text "c")),
      .instruction (.invoke blockOpen .null), .instruction (.invoke "+" .null)]
    let forest : List Expr := [.call "+" 2 1 .null [.literal .number (.number (.int 1)) (.text "a"),
      .literal .number (.number (.int 2)) .null,
      .block 0 1 (.text "c") [.literal .text (.text "x") .null]]]
    (reconstruct .builtin p).outcome = .ok forest ∧
      (postorderAll forest).map origin? = (p.filter (!·.isOpen)).map some ∧
      sizeAll forest + p.countP Entry.isOpen = p.length := by
  intro p forest
  have h : (reconstruct .builtin p).outcome = .ok forest := rfl
  exact ⟨h, postorder_reconstruct h⟩

end StackForest
