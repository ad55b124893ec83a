import StackForest.Proofs.Linear
import StackForest.Proofs.Room

/-!
# Long sums

The sum of many ones is as deep as its program is long, so whatever limit there is to calls inside
one another, a program with a forest goes beyond it (`exists_calls_lt`).
-/

namespace StackForest

open StackForest.Expr ShiftReduce

/-! ## The program and its tree -/

def one : Instruction := .pushNumber (.int 1) .null

def plus : Instruction := .invoke "+" .null

/-- `1 1 + 1 + 1 +` and so on, with `n` additions. -/
def sumCode (n : Nat) : List Instruction := one :: (List.replicate n [one, plus]).flatten

def sumTree : Nat → Expr
  | 0 => .literal .number (.number (.int 1)) .null
  | n + 1 => .call "+" 2 1 .null [sumTree n, .literal .number (.number (.int 1)) .null]

theorem sumCode_succ (n : Nat) : sumCode (n + 1) = sumCode n ++ [one, plus] := by
  rw [sumCode, List.replicate_succ', List.flatten_concat]
  rfl

theorem length_sumCode (n : Nat) : (sumCode n).length = 2 * n + 1 := by
  induction n with
  | zero => rfl
  | succ n ih =>
    rw [sumCode_succ, List.length_append, ih]
    rfl

theorem mem_sumCode {n : Nat} {i : Instruction} (h : i ∈ sumCode n) : i = one ∨ i = plus := by
  induction n with
  | zero => exact .inl (List.mem_singleton.mp h)
  | succ n ih =>
    rw [sumCode_succ, List.mem_append] at h
    rcases h with h | h
    · exact ih h
    · simpa using h

theorem linearize_sumTree (n : Nat) : linearize (sumTree n) = (sumCode n).map .instruction := by
  induction n with
  | zero => rfl
  | succ n ih =>
    rw [sumTree, linearize, linearizeAll, ih, sumCode_succ, List.map_append, List.append_assoc]
    rfl

theorem isBlock_sumTree (n : Nat) : (sumTree n).isBlock = false := by
  cases n <;> rfl

theorem wellFormed_sumTree (n : Nat) : wellFormed .builtin (sumTree n) = true := by
  induction n with
  | zero => rfl
  | succ n ih =>
    have hplus : (Table.builtin.lookup? "+").any
        (fun effect => effect.consumes == 2 && effect.produces == 1) = true := by decide
    have hname : ("+" != blockOpen && "+" != blockClose) = true := by decide
    have hoperands :
        isOperands 2 [sumTree n, .literal .number (.number (.int 1)) .null] = true := by
      have hone : (literal .number (.number (.int 1)) .null).isBlock = false := rfl
      simp [isOperands, isBlock_sumTree, hone]
    rw [sumTree, wellFormed, wellFormedAll, hname, hplus, hoperands, ih]
    rfl

theorem outcome_sumCode (n : Nat) :
    (reconstruct .builtin ((sumCode n).map .instruction)).outcome = .ok [sumTree n] := by
  have hforest : wellFormedAll .builtin [sumTree n] = true := by
    rw [wellFormedAll, wellFormed_sumTree]
    rfl
  have hcode : linearizeAll [sumTree n] = (sumCode n).map .instruction := by
    rw [linearizeAll, linearizeAll, List.append_nil, linearize_sumTree]
  rw [← hcode]
  exact outcome_linearizeAll hforest

/-! ## Its depth -/

theorem calls_sumTree (n : Nat) : (sumTree n).calls = 2 * n + 1 := by
  induction n with
  | zero => rfl
  | succ n ih =>
    have hone : callsAll [.literal .number (.number (.int 1)) .null] = 1 := rfl
    have hmax : (2 * n + 1).max 1 = 2 * n + 1 := Nat.max_eq_left (Nat.le_add_left 1 _)
    rw [sumTree, calls, callsAll, ih, hone, hmax]
    omega

/-- No limit to calls inside one another is enough for all forests. -/
theorem exists_calls_lt (limit : Nat) : ∃ (is : List Instruction) (forest : List Expr),
    (reconstruct .builtin (is.map .instruction)).outcome = .ok forest ∧
      limit < callsAll forest := by
  refine ⟨sumCode limit, [sumTree limit], outcome_sumCode limit, ?_⟩
  rw [callsAll, callsAll, calls_sumTree]
  exact Nat.lt_of_lt_of_le (by omega) (Nat.le_max_left _ _)

end StackForest
