import StackForest.Expr

/-!
# Pre-order

The nodes of a forest with parents in front of their children, in program order, each with the
number of its parent. The walk keeps a stack of the trees it has still to visit.
-/

namespace StackForest.Expr

mutual

def size : Expr → Nat
  | call _ _ _ _ cs => sizeAll cs + 1
  | block _ _ _ cs => sizeAll cs + 1
  | _ => 1

def sizeAll : List Expr → Nat
  | [] => 0
  | e :: es => size e + sizeAll es

end

theorem sizeAll_append (es fs : List Expr) : sizeAll (es ++ fs) = sizeAll es + sizeAll fs := by
  induction es with
  | nil => simp [sizeAll]
  | cons e es ih => simp [sizeAll, ih, Nat.add_assoc]

theorem size_eq (e : Expr) : e.size = sizeAll e.children + 1 := by
  cases e <;> simp [size, children, sizeAll]

theorem size_le_sizeAll {c : Expr} {es : List Expr} (h : c ∈ es) : size c ≤ sizeAll es := by
  induction es with
  | nil => cases h
  | cons e es ih =>
    rw [sizeAll]
    rcases List.mem_cons.mp h with rfl | h
    · omega
    · have := ih h
      omega

/-- The nodes of the trees on a stack, each with the number of its parent; the first has the
number `next`. -/
def walkFrom (next : Nat) : List (Expr × Option Nat) → List (Expr × Option Nat)
  | [] => []
  | (e, parent) :: stack =>
    (e, parent) :: walkFrom (next + 1) (e.children.map (·, some next) ++ stack)
termination_by stack => sizeAll (stack.map (·.1))
decreasing_by
  simp [sizeAll_append, sizeAll, size_eq e, Function.comp_def]

/-- The nodes of a forest in pre-order, each with the number of its parent. -/
def walk (forest : List Expr) : List (Expr × Option Nat) :=
  walkFrom 0 (forest.map (·, none))

end StackForest.Expr
