import StackForest.Proofs.Brace
import StackForest.Proofs.Except
import Mathlib.Data.List.Induction

/-!
# Shift-reduce parsing

The forest of a program in one pass from its start. A stack holds the trees that are finished and a
mark for each opening brace that still stands open; an opcode takes its operands across marks.
`Shift` says everything that one entry can do to the stack.
-/

namespace StackForest

/-- Whether an entry is a push, a brace or the invocation of a name that the table knows. -/
def Entry.isKnown (table : Table) : Entry → Bool
  | instruction (.invoke name _) =>
    name == blockOpen || name == blockClose || (table.lookup? name).isSome
  | instruction _ => true
  | foreign _ => false

namespace ShiftReduce

inductive Item where
  | tree (e : Expr)
  | mark

/-- Pops until `k` more trees that are no blocks have been popped, in front of `es`. -/
def popOperands : Nat → List Item → List Expr → Option (List Expr × List Item)
  | 0, s, es => some (es, s)
  | _ + 1, [], _ => none
  | k + 1, .mark :: s, es => popOperands (k + 1) s es
  | k + 1, .tree e :: s, es => popOperands (if e.isBlock then k + 1 else k) s (e :: es)

/-- Pops through the nearest mark, in front of `es`. -/
def popBlock : List Item → List Expr → Option (List Expr × List Item)
  | [], _ => none
  | .mark :: s, es => some (es, s)
  | .tree e :: s, es => popBlock s (e :: es)

def step (table : Table) (index : Nat) : Entry → List Item → Except TreeFault (List Item)
  | .instruction (.pushNumber n l), s => .ok (.tree (.literal .number (.number n) l) :: s)
  | .instruction (.pushText t l), s => .ok (.tree (.literal .text (.text t) l) :: s)
  | .instruction (.invoke name l), s =>
    if name = blockOpen then .ok (.mark :: s)
    else if name = blockClose then
      match popBlock s [] with
      | none => .error (.unterminatedBlock index)
      | some (es, s) => .ok (.tree (.ofChildren l es) :: s)
    else match table.lookup? name with
      | none => .error (.unknownOpcode name)
      | some effect =>
        match popOperands effect.consumes s [] with
        | none => .error (.missingOperand name index)
        | some (es, s) => .ok (.tree (.call name effect.consumes effect.produces l es) :: s)
  | .foreign v, _ => .error (.foreign index v)

def run (table : Table) : Nat → List Entry → List Item → Except TreeFault (List Item)
  | _, [], s => .ok s
  | index, e :: es, s => (step table index e s).bind fun s => run table (index + 1) es s

def trees : List Item → List Expr
  | [] => []
  | .tree e :: s => trees s ++ [e]
  | .mark :: s => trees s

def marks : List Item → Nat
  | [] => 0
  | .tree _ :: s => marks s
  | .mark :: s => marks s + 1

/-- The forest of a program; marks that are left over stand for nothing. -/
def parse (table : Table) (p : Program) : Except TreeFault (List Expr) :=
  (run table 0 p []).map trees

/-- Whether `es` are the children of an opcode with `k` operands: blocks do not count, and none
stands in front of the first operand. -/
def isOperands (k : Nat) (es : List Expr) : Bool :=
  es.countP (!·.isBlock) == k && (if k = 0 then es.isEmpty else es.head?.any (!·.isBlock))

/-! ## Stacks -/

theorem trees_append : ∀ s t : List Item, trees (s ++ t) = trees t ++ trees s
  | [], t => by simp [trees]
  | .tree e :: s, t => by simp [trees, trees_append s t]
  | .mark :: s, t => by simp [trees, trees_append s t]

theorem marks_append : ∀ s t : List Item, marks (s ++ t) = marks s + marks t
  | [], t => by simp [marks]
  | .tree e :: s, t => by simp [marks, marks_append s t]
  | .mark :: s, t => by simp only [List.cons_append, marks, marks_append s t]; omega

theorem eq_append_of_popBlock : ∀ {s : List Item} {es fs : List Expr} {r : List Item},
    popBlock s es = some (fs, r) → ∃ t, s = t ++ .mark :: r ∧ marks t = 0 ∧ fs = trees t ++ es
  | [], es, fs, r, h => by cases h
  | .mark :: s, es, fs, r, h => by
    cases h
    exact ⟨[], rfl, rfl, rfl⟩
  | .tree e :: s, es, fs, r, h => by
    rw [popBlock] at h
    obtain ⟨t, rfl, hm, rfl⟩ := eq_append_of_popBlock h
    exact ⟨.tree e :: t, rfl, hm, by simp [trees]⟩

theorem isOperands_snoc_block {e : Expr} (he : e.isBlock = true) (k : Nat) (es : List Expr) :
    isOperands (k + 1) (es ++ [e]) = isOperands (k + 1) es := by
  cases es <;> simp [isOperands, List.countP_cons, List.countP_append, he]

theorem isOperands_snoc_operand {e : Expr} (he : e.isBlock = false) (k : Nat) (es : List Expr) :
    isOperands (k + 1) (es ++ [e]) = isOperands k es := by
  cases es with
  | nil => cases k <;> simp [isOperands, he]
  | cons f es =>
    by_cases hf : f.isBlock = true
    · simp [isOperands, List.countP_append, he, hf]
    · cases k <;> simp [isOperands, List.countP_append, he, hf]

theorem not_isOperands_zero (es : List Expr) (e : Expr) : isOperands 0 (es ++ [e]) = false := by
  simp [isOperands]

theorem eq_append_of_popOperands : ∀ {k : Nat} {s : List Item} {es fs : List Expr} {r : List Item},
    popOperands k s es = some (fs, r) →
      ∃ t, s = t ++ r ∧ fs = trees t ++ es ∧ isOperands k (trees t) = true
  | 0, s, es, fs, r, h => by
    simp only [popOperands, Option.some.injEq, Prod.mk.injEq] at h
    obtain ⟨rfl, rfl⟩ := h
    exact ⟨[], rfl, rfl, rfl⟩
  | k + 1, [], es, fs, r, h => by cases h
  | k + 1, .mark :: s, es, fs, r, h => by
    rw [popOperands] at h
    obtain ⟨t, rfl, rfl, ht⟩ := eq_append_of_popOperands h
    exact ⟨.mark :: t, rfl, rfl, ht⟩
  | k + 1, .tree e :: s, es, fs, r, h => by
    rw [popOperands] at h
    cases he : e.isBlock with
    | true =>
      rw [he, if_pos rfl] at h
      obtain ⟨t, rfl, rfl, ht⟩ := eq_append_of_popOperands h
      exact ⟨.tree e :: t, rfl, by simp [trees], by rw [trees, isOperands_snoc_block he, ht]⟩
    | false =>
      rw [he, if_neg Bool.false_ne_true] at h
      obtain ⟨t, rfl, rfl, ht⟩ := eq_append_of_popOperands h
      exact ⟨.tree e :: t, rfl, by simp [trees], by rw [trees, isOperands_snoc_operand he, ht]⟩

/-! ## Runs -/

theorem run_append (table : Table) : ∀ (p q : List Entry) (index : Nat) (s : List Item),
    run table index (p ++ q) s =
      (run table index p s).bind fun s => run table (index + p.length) q s
  | [], q, index, s => rfl
  | e :: p, q, index, s => by
    simp only [List.cons_append, run]
    cases step table index e s with
    | error fault => rfl
    | ok s =>
      have h : index + 1 + p.length = index + (e :: p).length := by simp; omega
      simp only [Except.bind, run_append table p q (index + 1) s, h]

theorem run_snoc (table : Table) (p : List Entry) (e : Entry) (index : Nat) (s : List Item) :
    run table index (p ++ [e]) s =
      (run table index p s).bind (step table (index + p.length) e) := by
  rw [run_append]
  congr 1; funext s
  simp only [run]
  cases step table (index + p.length) e s <;> rfl

theorem run_eq_error_iff {table : Table} {fault : TreeFault} {p : List Entry} {index : Nat}
    {s : List Item} : run table index p s = .error fault ↔ ∃ q e r t, p = q ++ e :: r ∧
      run table index q s = .ok t ∧ step table (index + q.length) e t = .error fault := by
  constructor
  · intro h
    induction p generalizing index s with
    | nil => cases h
    | cons x p ih =>
      rw [run] at h
      cases hx : step table index x s with
      | error other =>
        rw [hx] at h
        cases h
        exact ⟨[], x, p, s, rfl, rfl, hx⟩
      | ok t =>
        rw [hx] at h
        obtain ⟨q, e, r, u, rfl, hq, he⟩ := ih h
        refine ⟨x :: q, e, r, u, rfl, ?_, ?_⟩
        · rw [run, hx]; exact hq
        · rw [← he, List.length_cons]; congr 1; omega
  · rintro ⟨q, e, r, t, rfl, hq, he⟩
    rw [run_append, hq, Except.bind, run, he, Except.bind]

/-- Everything that one entry can do to the stack. -/
inductive Shift (table : Table) : Entry → List Item → List Item → Prop
  | number {n l s} :
    Shift table (.instruction (.pushNumber n l)) s (.tree (.literal .number (.number n) l) :: s)
  | text {t l s} :
    Shift table (.instruction (.pushText t l)) s (.tree (.literal .text (.text t) l) :: s)
  | opening {l s} : Shift table (.instruction (.invoke blockOpen l)) s (.mark :: s)
  | closing {l t s} : marks t = 0 →
    Shift table (.instruction (.invoke blockClose l)) (t ++ .mark :: s)
      (.tree (.ofChildren l (trees t)) :: s)
  | opcode {name effect l t s} : name ≠ blockOpen → name ≠ blockClose →
    table.lookup? name = some effect → isOperands effect.consumes (trees t) = true →
    Shift table (.instruction (.invoke name l)) (t ++ s)
      (.tree (.call name effect.consumes effect.produces l (trees t)) :: s)

theorem shift_of_step {table : Table} {index : Nat} {e : Entry} {s r : List Item}
    (h : step table index e s = .ok r) : Shift table e s r := by
  cases e with
  | foreign v => cases h
  | instruction i =>
    cases i with
    | pushNumber n l => cases h; exact .number
    | pushText t l => cases h; exact .text
    | invoke name l =>
      simp only [step] at h
      split at h
      · next ho => cases h; rw [ho]; exact .opening
      next ho =>
      split at h
      · next hc =>
        split at h
        · cases h
        next es r' hp =>
        obtain ⟨t, rfl, hm, rfl⟩ := eq_append_of_popBlock hp
        cases h; rw [hc, List.append_nil]; exact .closing hm
      next hc =>
      split at h
      · cases h
      next effect hl =>
      split at h
      · cases h
      next es r' hp =>
      obtain ⟨t, rfl, rfl, ht⟩ := eq_append_of_popOperands hp
      cases h; rw [List.append_nil]; exact .opcode ho hc hl ht

theorem run_induction {table : Table} {P : Program → List Item → Prop} (nil : P [] [])
    (snoc : ∀ {p e s r}, P p s → Shift table e s r → P (p ++ [e]) r) :
    ∀ {p : Program} {s : List Item}, run table 0 p [] = .ok s → P p s := by
  intro p
  induction p using List.reverseRecOn with
  | nil => intro s h; cases h; exact nil
  | append_singleton p e ih =>
    intro r h
    rw [run_snoc] at h
    obtain ⟨s, hs, hr⟩ := exists_of_bind_eq_ok h
    exact snoc (ih hs) (shift_of_step hr)

end ShiftReduce
end StackForest
