import StackForest.Text.Position
import Mathlib.Data.List.DropRight

/-!
# The place that a position names

Along a text the positions are all different, and a text that begins some lines further down has its
positions as many lines lower.
-/

namespace StackForest.Text.Position

/-- The position behind a text: one more than its line feeds, and one more than the characters
behind the last of them. -/
def behind (cs : List Char) : Position :=
  ⟨1 + cs.count '\n', 1 + (cs.rtakeWhile (· != '\n')).length⟩

theorem step_behind (cs : List Char) (c : Char) : (behind cs).step c = behind (cs ++ [c]) := by
  unfold step behind
  split
  · next h => simp [h, Nat.add_assoc]
  · next h => simp [h, Nat.add_assoc]

theorem after_start (cs : List Char) : start.after cs = behind cs := by
  induction cs using List.reverseRecOn with
  | nil => rfl
  | append_singleton cs c ih => rw [after_append, ih, after_cons, after_nil, step_behind]

/-! ## Further down -/

def lower (n : Nat) (p : Position) : Position := ⟨p.line + n, p.column⟩

theorem step_lower (n : Nat) (p : Position) (c : Char) :
    (p.lower n).step c = (p.step c).lower n := by
  unfold step
  split
  · simp [lower, Nat.add_right_comm]
  · rfl

theorem after_lower (n : Nat) (p : Position) (cs : List Char) :
    (p.lower n).after cs = (p.after cs).lower n := by
  induction cs generalizing p with
  | nil => rfl
  | cons c cs ih => rw [after_cons, step_lower, ih, after_cons]

theorem after_start_lineFeed (cs : List Char) :
    (start.after cs).step '\n' = start.lower (cs.count '\n' + 1) := by
  have hcolumn : (cs ++ ['\n']).rtakeWhile (· != '\n') = [] := by simp
  rw [after_start, step_behind, behind, hcolumn, List.count_append]
  rfl

/-! ## Positions along a text -/

theorem after_moves (p : Position) (cs : List Char) :
    p.line < (p.after cs).line ∨
      p.line = (p.after cs).line ∧ p.column + cs.length = (p.after cs).column := by
  induction cs generalizing p with
  | nil => exact .inr ⟨rfl, rfl⟩
  | cons c cs ih =>
    rw [after_cons, List.length_cons]
    have hstep : p.line < (p.step c).line ∨
        p.line = (p.step c).line ∧ p.column + 1 = (p.step c).column := by
      unfold step
      split
      · exact .inl (Nat.lt_succ_self _)
      · exact .inr ⟨rfl, rfl⟩
    have hrest := ih (p.step c)
    omega

theorem after_take_lt (p : Position) {cs : List Char} {j k : Nat} (hjk : j < k)
    (hk : k ≤ cs.length) : p.after (cs.take j) ≠ p.after (cs.take k) := by
  intro heq
  have hsplit := List.take_append_drop j (cs.take k)
  rw [List.take_take, Nat.min_eq_left hjk.le] at hsplit
  have hlength : ((cs.take k).drop j).length = k - j := by simp [hk]
  rw [← hsplit, after_append] at heq
  have h := after_moves (p.after (cs.take j)) ((cs.take k).drop j)
  rw [← heq] at h
  omega

theorem after_take_injective (p : Position) {cs : List Char} {j k : Nat} (hj : j ≤ cs.length)
    (hk : k ≤ cs.length) (h : p.after (cs.take j) = p.after (cs.take k)) : j = k := by
  rcases Nat.lt_trichotomy j k with hlt | heq | hgt
  · exact absurd h (after_take_lt p hlt hk)
  · exact heq
  · exact absurd h.symm (after_take_lt p hgt hj)

end StackForest.Text.Position
