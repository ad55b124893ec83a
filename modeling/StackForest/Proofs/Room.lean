import StackForest.Value

/-!
# Limits

A limit that leaves room for a depth leaves room for everything less deep, and a value leaves room
for what is in it.
-/

namespace StackForest

/-! ## Depths that fit -/

namespace Room

variable {limit : Option Nat} {m n : Nat}

@[simp]
theorem fits_none (n : Nat) : fits none n = true := rfl

theorem fits_some_iff {l : Nat} : fits (some l) n = true ↔ n ≤ l := decide_eq_true_iff

theorem fits_of_le (h : m ≤ n) (hn : fits limit n = true) : fits limit m = true := by
  cases limit with
  | none => rfl
  | some l => exact fits_some_iff.mpr (Nat.le_trans h (fits_some_iff.mp hn))

theorem fits_max : fits limit (m.max n) = true ↔ fits limit m = true ∧ fits limit n = true := by
  cases limit with
  | none => simp
  | some l =>
    simp only [fits_some_iff]
    exact Nat.max_le

@[simp]
theorem fits_zero (limit : Option Nat) : fits limit 0 = true := by
  cases limit with
  | none => rfl
  | some l => exact fits_some_iff.mpr (Nat.zero_le l)

end Room

/-! ## Nesting -/

namespace Value

theorem nesting_le_of_mem {v : Value} {vs : List Value} (h : v ∈ vs) :
    v.nesting ≤ nestingItems vs := by
  induction vs with
  | nil => cases h
  | cons w vs ih =>
    rw [nestingItems]
    rcases List.mem_cons.mp h with rfl | h
    · exact Nat.le_max_left _ _
    · exact Nat.le_trans (ih h) (Nat.le_max_right _ _)

theorem nesting_le_of_mem_fields {f : String × Value} {fields : List (String × Value)}
    (h : f ∈ fields) : f.2.nesting ≤ nestingFields fields := by
  induction fields with
  | nil => cases h
  | cons g fields ih =>
    rw [nestingFields]
    rcases List.mem_cons.mp h with rfl | h
    · exact Nat.le_max_left _ _
    · exact Nat.le_trans (ih h) (Nat.le_max_right _ _)

end Value
end StackForest
