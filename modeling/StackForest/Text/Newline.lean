/-!
# Line ends

A text that comes from a file has one kind of line end: a carriage return, with or without a line
feed behind it, is read as a line feed.
-/

namespace StackForest.Text

def unifyNewlines : List Char → List Char
  | [] => []
  | '\r' :: '\n' :: r => '\n' :: unifyNewlines r
  | c :: r => (if c = '\r' then '\n' else c) :: unifyNewlines r

theorem unifyNewlines_of_not_mem {cs : List Char} (h : '\r' ∉ cs) : unifyNewlines cs = cs := by
  induction cs with
  | nil => rfl
  | cons c r ih =>
    simp only [List.mem_cons, not_or] at h
    rw [unifyNewlines, ih h.2, if_neg (Ne.symm h.1)]
    intro _ hc
    exact absurd hc (Ne.symm h.1)

end StackForest.Text
