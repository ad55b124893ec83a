import StackForest.Proofs.Brace

/-!
# Recursive descent

The forest of a program by recursion instead of frames. `tree` gives the tree of one entry; a block
and a call look for their children in loops of their own (`blockChildren`, `operands`). All calls
share one cursor, the lowest index visited so far.
-/

namespace StackForest

/-- Where a call ended: with its result or a fault, at a cursor that never moves up, and with the
indices visited so far, newest first. -/
structure Descent (bound : Nat) (α : Type) where
  result : Except TreeFault α
  cursor : Nat
  visited : List Nat
  cursor_le : cursor ≤ bound

namespace Descent

def andThen {b bound : Nat} {α β : Type} (d : Descent b α) (hb : b ≤ bound)
    (next : α → (cursor : Nat) → cursor ≤ b → List Nat → Descent cursor β) : Descent bound β :=
  match d.result with
  | .ok x =>
    let r := next x d.cursor d.cursor_le d.visited
    ⟨r.result, r.cursor, r.visited, Nat.le_trans r.cursor_le (Nat.le_trans d.cursor_le hb)⟩
  | .error fault => ⟨.error fault, d.cursor, d.visited, Nat.le_trans d.cursor_le hb⟩

def map {b : Nat} {α β : Type} (f : α → β) (d : Descent b α) : Descent b β :=
  ⟨d.result.map f, d.cursor, d.visited, d.cursor_le⟩

section
variable (table : Table) (p : Program)

mutual
/-- The tree of the entry at `i`; an opening brace has none. -/
def tree (i : Nat) (hi : i < p.length) (visited : List Nat) : Descent i (Option Expr) :=
  let visited := i :: visited
  match p[i] with
  | .instruction (.pushNumber n l) =>
    ⟨.ok (some (.literal .number (.number n) l)), i, visited, Nat.le_refl i⟩
  | .instruction (.pushText t l) =>
    ⟨.ok (some (.literal .text (.text t) l)), i, visited, Nat.le_refl i⟩
  | .instruction (.invoke name l) =>
    if name = blockClose then
      (blockChildren i 1 [] i (Nat.le_of_lt hi) visited).map fun es => some (.ofChildren l es)
    else if name = blockOpen then ⟨.ok none, i, visited, Nat.le_refl i⟩
    else match table.lookup? name with
      | none => ⟨.error (.unknownOpcode name), i, visited, Nat.le_refl i⟩
      | some effect =>
        (operands i name effect.inputs.length [] i (Nat.le_of_lt hi) visited).map fun es =>
          some (.call name effect.inputs.length effect.outputs.length l es)
  | .foreign v => ⟨.error (.foreign i v), i, visited, Nat.le_refl i⟩
termination_by 2 * i + 1
decreasing_by all_goals omega

/-- The children of the block that the closing brace at `i` ends. The opening brace that takes the
depth to zero stays in front of the cursor. -/
def blockChildren (i depth : Nat) (es : List Expr) (cursor : Nat) (hc : cursor ≤ p.length)
    (visited : List Nat) : Descent cursor (List Expr) :=
  match cursor with
  | 0 => ⟨.error (.unterminatedBlock i), 0, visited, Nat.le_refl 0⟩
  | j + 1 =>
    let depth :=
      if p[j].isOpen then depth - 1 else if p[j].isClose then depth + 1 else depth
    if depth = 0 then ⟨.ok es, j + 1, visited, Nat.le_refl _⟩
    else (tree j hc visited).andThen (Nat.le_succ j) fun child cursor hj visited =>
      blockChildren i depth (child.toList ++ es) cursor
        (Nat.le_trans hj (Nat.le_of_lt hc)) visited
termination_by 2 * cursor
decreasing_by all_goals omega

/-- The children of the opcode at `i`, of which `arity` are no blocks. -/
def operands (i : Nat) (name : String) (arity : Nat) (es : List Expr) (cursor : Nat)
    (hc : cursor ≤ p.length) (visited : List Nat) : Descent cursor (List Expr) :=
  if es.countP (!·.isBlock) = arity then ⟨.ok es, cursor, visited, Nat.le_refl _⟩
  else match cursor with
    | 0 => ⟨.error (.missingOperand name i), 0, visited, Nat.le_refl 0⟩
    | j + 1 =>
      (tree j hc visited).andThen (Nat.le_succ j) fun child cursor hj visited =>
        operands i name arity (child.toList ++ es) cursor
          (Nat.le_trans hj (Nat.le_of_lt hc)) visited
termination_by 2 * cursor
decreasing_by all_goals omega
end

/-- The forest in front of `cursor`, ahead of the trees found so far. -/
def forest (roots : List Expr) (cursor : Nat) (hc : cursor ≤ p.length) (visited : List Nat) :
    Descent cursor (List Expr) :=
  match cursor with
  | 0 => ⟨.ok roots, 0, visited, Nat.le_refl 0⟩
  | j + 1 =>
    (tree table p j hc visited).andThen (Nat.le_succ j) fun root cursor hj visited =>
      forest (root.toList ++ roots) cursor (Nat.le_trans hj (Nat.le_of_lt hc)) visited
termination_by cursor
decreasing_by exact Nat.lt_succ_of_le hj

end

end Descent

/-- The forest of a program, or its fault, with the indices visited. -/
def descend (table : Table) (p : Program) : Run :=
  let d := Descent.forest table p [] p.length (Nat.le_refl _) []
  ⟨d.visited.reverse, d.result⟩

/-! ## The scan goes on from a call -/

theorem reverse_take_succ {p : Program} {j : Nat} (hj : j < p.length) :
    (p.take (j + 1)).reverse = p[j] :: (p.take j).reverse := by
  rw [List.take_add_one, List.getElem?_eq_getElem hj, List.reverse_append]
  rfl

section
variable (table : Table) (p : Program)

def resume (done : Option Expr) (frames : List Frame) (roots : List Expr) (cursor : Nat)
    (visited : List Nat) : Run :=
  match settle (p.take cursor).reverse done frames roots with
  | .error fault => ⟨visited.reverse, .error fault⟩
  | .ok s => scan table cursor (p.take cursor).reverse s visited

def Descent.run {b : Nat} {α : Type} (d : Descent b α) (next : α → Nat → List Nat → Run) : Run :=
  match d.result with
  | .ok x => next x d.cursor d.visited
  | .error fault => ⟨d.visited.reverse, .error fault⟩

theorem Descent.run_andThen {b bound : Nat} {α β : Type} (d : Descent b α) (hb : b ≤ bound)
    (f : α → (cursor : Nat) → cursor ≤ b → List Nat → Descent cursor β)
    (next : β → Nat → List Nat → Run) : (d.andThen hb f).run next =
      match d.result with
      | .ok x => (f x d.cursor d.cursor_le d.visited).run next
      | .error fault => ⟨d.visited.reverse, .error fault⟩ := by
  unfold Descent.run andThen
  cases d.result <;> rfl

theorem Descent.run_map {b : Nat} {α β : Type} (d : Descent b α) (f : α → β)
    (next : β → Nat → List Nat → Run) : (d.map f).run next = d.run fun x => next (f x) := by
  unfold Descent.run map
  cases d.result <;> rfl

variable {frames : List Frame} {roots : List Expr} {visited : List Nat}

theorem resume_block {i depth l es} (child : Option Expr) (cursor : Nat) :
    resume table p child (.block i l depth es :: frames) roots cursor visited =
      resume table p none (.block i l depth (child.toList ++ es) :: frames) roots cursor
        visited := by
  cases child <;> rfl

theorem resume_call {i n l d} {es : List Expr} (child : Option Expr) (cursor : Nat) :
    resume table p child (.call i n l d (es.countP (!·.isBlock)) es :: frames) roots cursor
        visited =
      resume table p none (.call i n l d ((child.toList ++ es).countP (!·.isBlock))
        (child.toList ++ es) :: frames) roots cursor visited := by
  cases child with
  | none => rfl
  | some e => cases he : e.isBlock <;> simp [resume, settle, Frame.receive, Frame.add, he]

theorem resume_block_succ {i depth l es} {j : Nat} (hj : j < p.length) :
    resume table p none (.block i l depth es :: frames) roots (j + 1) visited =
      let depth :=
        if p[j].isOpen then depth - 1 else if p[j].isClose then depth + 1 else depth
      if depth = 0 then resume table p (some (.ofChildren l es)) frames roots (j + 1) visited
      else scan table (j + 1) (p.take (j + 1)).reverse ⟨.block i l depth es :: frames, roots⟩
        visited := by
  rw [resume, reverse_take_succ hj]
  simp only [settle, Frame.receive, Frame.move, nextDepth_eq]
  generalize (if p[j].isOpen then depth - 1 else if p[j].isClose then depth + 1 else depth) = d
  by_cases hd : d = 0
  · rw [if_pos hd, if_pos hd, resume, reverse_take_succ hj]
  · rw [if_neg hd, if_neg hd]

theorem resume_call_succ {i n l d counted es} {j : Nat} (hj : j < p.length) :
    resume table p none (.call i n l d counted es :: frames) roots (j + 1) visited =
      if d.consumes ≤ counted then
        resume table p (some (.call n d.consumes d.produces l es)) frames roots (j + 1) visited
      else scan table (j + 1) (p.take (j + 1)).reverse ⟨.call i n l d counted es :: frames, roots⟩
        visited := by
  rw [resume, reverse_take_succ hj]
  simp only [settle, Frame.receive, Frame.move]
  by_cases hk : d.consumes ≤ counted
  · rw [if_pos hk, if_pos hk, resume, reverse_take_succ hj]
  · rw [if_neg hk, if_neg hk]; rfl

open Descent

mutual
theorem scan_tree (i : Nat) (hi : i < p.length) (visited : List Nat) (frames : List Frame)
    (roots : List Expr) :
    scan table (i + 1) (p.take (i + 1)).reverse ⟨frames, roots⟩ visited =
      (tree table p i hi visited).run fun done => resume table p done frames roots := by
  rw [reverse_take_succ hi, scan, tree]
  simp only [Nat.add_sub_cancel, visit]
  cases p[i] with
  | foreign v => rfl
  | instruction ins =>
    cases ins with
    | pushNumber n l => rfl
    | pushText t l => rfl
    | invoke name l =>
      simp only [Begun.ofEntry]
      by_cases hc : name = blockClose
      · simp only [if_pos hc]
        rw [run_map, ← resume_blockChildren]
        rfl
      by_cases ho : name = blockOpen
      · simp only [if_neg hc, if_pos ho]
        rfl
      simp only [if_neg hc, if_neg ho]
      cases table.lookup? name with
      | none => rfl
      | some effect =>
        simp only
        rw [run_map]
        exact resume_operands i name effect l [] (Nat.zero_le _) i (Nat.le_of_lt hi) _ frames roots
termination_by 2 * i + 1

theorem resume_blockChildren (i depth : Nat) (l : Value) (es : List Expr) (cursor : Nat)
    (hc : cursor ≤ p.length) (visited : List Nat) (frames : List Frame) (roots : List Expr) :
    resume table p none (.block i l depth es :: frames) roots cursor visited =
      (blockChildren table p i depth es cursor hc visited).run fun es =>
        resume table p (some (.ofChildren l es)) frames roots := by
  cases cursor with
  | zero => rw [blockChildren]; rfl
  | succ j =>
    rw [resume_block_succ table p hc, blockChildren]
    simp only
    generalize (if p[j].isOpen then depth - 1 else if p[j].isClose then depth + 1 else depth) = d
    by_cases hd : d = 0
    · rw [if_pos hd, if_pos hd]
      rfl
    · rw [if_neg hd, if_neg hd, scan_tree j hc, run_andThen]
      obtain ⟨result, c, v, hcj⟩ := tree table p j hc visited
      cases result with
      | error fault => rfl
      | ok child =>
        simp only [Descent.run]
        rw [resume_block]
        exact resume_blockChildren i d l _ c (by omega) v frames roots
termination_by 2 * cursor

theorem resume_operands (i : Nat) (n : String) (d : Effect) (l : Value) (es : List Expr)
    (hk : es.countP (!·.isBlock) ≤ d.consumes) (cursor : Nat) (hc : cursor ≤ p.length)
    (visited : List Nat) (frames : List Frame) (roots : List Expr) :
    resume table p none (.call i n l d (es.countP (!·.isBlock)) es :: frames) roots cursor
        visited =
      (operands table p i n d.consumes es cursor hc visited).run fun es =>
        resume table p (some (.call n d.consumes d.produces l es)) frames roots := by
  unfold operands
  by_cases he : es.countP (!·.isBlock) = d.consumes
  · have hm : Frame.move (p.take cursor).reverse (.call i n l d (es.countP (!·.isBlock)) es) =
        .ok (.close (.call n d.consumes d.produces l es)) := by simp [Frame.move, he]
    rw [if_pos he, resume, settle, Frame.receive, hm]
    rfl
  rw [if_neg he]
  cases cursor with
  | zero =>
    have hlt : ¬ d.consumes ≤ es.countP (!·.isBlock) := by omega
    simp [resume, settle, Frame.receive, Frame.move, Descent.run, hlt]
  | succ j =>
    have hlt : ¬ d.consumes ≤ es.countP (!·.isBlock) := by omega
    rw [resume_call_succ table p hc, if_neg hlt, scan_tree j hc]
    simp only [run_andThen]
    obtain ⟨result, c, v, hcj⟩ := tree table p j hc visited
    cases result with
    | error fault => rfl
    | ok child =>
      simp only [Descent.run]
      rw [resume_call]
      -- a visit adds one tree at most, so the operands never exceed what the opcode wants
      have hle : (child.toList ++ es).countP (!·.isBlock) ≤ d.consumes := by
        have h1 : child.toList.countP (!·.isBlock) ≤ 1 :=
          Nat.le_trans List.countP_le_length (by cases child <;> simp)
        rw [List.countP_append]
        omega
      exact resume_operands i n d l _ hle c (by omega) v frames roots
termination_by 2 * cursor
end

theorem scan_forest (roots : List Expr) (cursor : Nat) (hc : cursor ≤ p.length)
    (visited : List Nat) :
    scan table cursor (p.take cursor).reverse ⟨[], roots⟩ visited =
      (forest table p roots cursor hc visited).run fun es _ visited =>
        ⟨visited.reverse, .ok es⟩ := by
  unfold forest
  cases cursor with
  | zero => rfl
  | succ j =>
    rw [scan_tree table p j hc]
    simp only [run_andThen]
    obtain ⟨result, c, v, hcj⟩ := tree table p j hc visited
    cases result with
    | error fault => rfl
    | ok root => exact scan_forest (root.toList ++ roots) c (by omega) v
termination_by cursor

end

/-- **Frames and recursion.** The scan with a stack of frames is the recursion with one cursor: it
visits the same indices and has the same forest, or the same fault. -/
theorem reconstruct_eq_descend (table : Table) (p : Program) :
    reconstruct table p = descend table p := by
  have h := scan_forest table p [] p.length (Nat.le_refl _) []
  rw [List.take_length] at h
  rw [reconstruct, h, descend, Descent.run]
  cases (Descent.forest table p [] p.length (Nat.le_refl _) []).result <;> rfl

end StackForest
