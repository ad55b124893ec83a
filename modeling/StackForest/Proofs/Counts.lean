import StackForest.Proofs.Linear

/-!
# How large counts are

A node counts at most as many values as the largest effect of the table for each node below it.
-/

namespace StackForest

/-- Whether no effect of a table takes or leaves more than `arity` values. -/
def Table.HasArity (table : Table) (arity : Nat) : Prop :=
  ∀ name effect, table.lookup? name = some effect →
    effect.consumes ≤ arity ∧ effect.produces ≤ arity

theorem Table.hasArity_builtin : builtin.HasArity 2 := by
  have hall : ∀ f ∈ builtin.entries, f.2.consumes ≤ 2 ∧ f.2.produces ≤ 2 := by decide
  intro name effect h
  obtain ⟨f, hf, rfl⟩ := Option.map_eq_some_iff.mp h
  exact hall f (List.mem_of_find?_eq_some hf)

namespace Expr

theorem size_le_of_mem {b : Expr} (e : Expr) (h : b ∈ postorder e) : size b ≤ size e := by
  induction e using induction_on with
  | h e ih =>
    rw [postorder_eq, List.mem_append, List.mem_singleton] at h
    rcases h with h | rfl
    · obtain ⟨c, hc, hb⟩ := mem_postorderAll.mp h
      have hle := Nat.le_trans (ih c hc hb) (size_le_sizeAll hc)
      rw [size_eq e]
      omega
    · exact Nat.le_refl _

/-! ## Effects -/

mutual
theorem counts_le {table : Table} {arity : Nat} (h1 : 1 ≤ arity) (ht : table.HasArity arity) :
    ∀ e : Expr, wellFormed table e = true →
    (0 ≤ e.consumes ∧ e.consumes ≤ arity * size e) ∧ 0 ≤ e.produces ∧ e.produces ≤ arity * size e
  | literal _ _ _, _ => by
    simp only [consumes, produces, size]
    omega
  | bare _ _ _ _, h => by cases h
  | call name c p l es, h => by
    simp only [wellFormed, Bool.and_eq_true, Option.any_eq_true, beq_iff_eq] at h
    obtain ⟨⟨⟨-, effect, hlookup, rfl, rfl⟩, -⟩, -⟩ := h
    have harities := ht name effect hlookup
    have hsize : arity ≤ arity * size (call name effect.consumes effect.produces l es) :=
      Nat.le_mul_of_pos_right arity (by rw [size]; omega)
    simp only [consumes, produces]
    omega
  | block c p l es, h => by
    simp only [wellFormed, Bool.and_eq_true, beq_iff_eq] at h
    obtain ⟨⟨rfl, rfl⟩, hes⟩ := h
    have htotals := totals_le h1 ht es hes
    simp only [consumes, produces, size, Int.natCast_add, Int.mul_add]
    omega
theorem totals_le {table : Table} {arity : Nat} (h1 : 1 ≤ arity)
    (ht : table.HasArity arity) : ∀ es : List Expr, wellFormedAll table es = true →
    (0 ≤ totalConsumes es ∧ totalConsumes es ≤ arity * sizeAll es) ∧
      0 ≤ totalProduces es ∧ totalProduces es ≤ arity * sizeAll es
  | [], _ => by simp [totalConsumes, totalProduces, sizeAll]
  | e :: es, h => by
    rw [wellFormedAll, Bool.and_eq_true] at h
    have he := counts_le h1 ht e h.1
    have hes := totals_le h1 ht es h.2
    simp only [totalConsumes, totalProduces, sizeAll, Int.natCast_add, Int.mul_add]
    omega
end

end Expr
end StackForest
