import StackForest.Path
import Mathlib.Data.List.Basic

/-!
# Names

A path without slashes is one name, and its own normal form.
-/

namespace StackForest.Path

theorem runs_of_notMem {cs : List Char} (h : '/' ∉ cs) : runs cs = [cs] := by
  induction cs with
  | nil => rfl
  | cons c cs ih =>
    have hc : c ≠ '/' := (List.ne_of_not_mem_cons h).symm
    have hrest := ih (List.not_mem_of_not_mem_cons h)
    unfold runs at hrest ⊢
    rw [List.foldr_cons, hrest, if_neg hc]
    rfl

section
variable {path : String} (hslash : '/' ∉ path.toList)
include hslash

theorem root_of_notMem : root path = "" := by
  have hnone : path.toList.takeWhile (· == '/') = [] := by
    cases hcs : path.toList with
    | nil => rfl
    | cons c cs =>
      rw [hcs] at hslash
      rw [List.takeWhile_cons_of_neg (by simpa using (List.ne_of_not_mem_cons hslash).symm)]
  rw [root, hnone]
  rfl

variable (hempty : path ≠ "")
include hempty

theorem components_of_notMem : components path = [path] := by
  rw [components, runs_of_notMem hslash, List.filter_cons_of_pos (by simpa using hempty)]
  simp

theorem names_of_notMem (hdot : path ≠ ".") : names path = [path] := by
  rw [names, components_of_notMem hslash hempty]
  simp [hdot]

theorem normalize_of_notMem (hdot : path ≠ ".") : normalize path = path := by
  rw [normalize, names_of_notMem hslash hempty hdot, root_of_notMem hslash]
  simp [hempty]

theorem suffix_of_notMem (hdot : path ≠ ".") : suffix path = suffixOf path := by
  rw [suffix, names_of_notMem hslash hempty hdot]
  rfl

end

end StackForest.Path
