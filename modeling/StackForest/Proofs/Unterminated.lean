import StackForest.Proofs.Matching
import StackForest.Proofs.Visits

/-!
# Unterminated blocks

A closing brace is refused when every opening brace in front of it has been used up, by a block or
by an opcode that takes operands across it (`hasMatch_iff_of_unterminatedBlock`).
-/

namespace StackForest

open ShiftReduce StackForest.Expr

/-! ## Counting braces -/

theorem Entry.isOpen_of_isClose {e : Entry} (h : e.isClose = true) : e.isOpen = false := by
  cases ho : e.isOpen with
  | false => rfl
  | true =>
    rw [isClose_of_isOpen ho] at h
    cases h

theorem countP_of_balanced {p : Program} (h : Balanced p) :
    p.countP Entry.isClose = p.countP Entry.isOpen := by
  induction h with
  | nil => rfl
  | plain ho hc _ ih => simp [ho, hc, ih]
  | @braces o c p q ho hc _ _ ih₁ ih₂ =>
    have hoc := Entry.isClose_of_isOpen ho
    have hco := Entry.isOpen_of_isClose hc
    simp only [List.countP_cons, List.countP_append, ho, hc, hoc, hco]
    simp only [if_true, if_false, Bool.false_eq_true]
    omega

theorem countP_le_of_isPrefix {p : Program} (h : Balanced p) :
    ∀ {q : Program}, q <+: p → q.countP Entry.isClose ≤ q.countP Entry.isOpen := by
  induction h with
  | nil =>
    intro q hq
    rw [List.prefix_nil.mp hq]
    exact Nat.le_refl _
  | plain ho hc _ ih =>
    intro q hq
    rcases List.prefix_cons_iff.mp hq with rfl | ⟨q, rfl, hq'⟩
    · exact Nat.le_refl _
    · simpa [ho, hc] using ih hq'
  | @braces o c p₁ p₂ ho hc h₁ _ ih₁ ih₂ =>
    intro q hq
    have hoc := Entry.isClose_of_isOpen ho
    have hp₁ := countP_of_balanced h₁
    rcases List.prefix_cons_iff.mp hq with rfl | ⟨q, rfl, hq'⟩
    · exact Nat.le_refl _
    rcases List.prefix_or_prefix_of_prefix hq' (List.prefix_append p₁ _) with hq₁ | ⟨q, rfl⟩
    · have := ih₁ hq₁
      simp only [List.countP_cons, ho, hoc]
      simp only [if_true, if_false, Bool.false_eq_true]
      omega
    rw [List.prefix_append_right_inj] at hq'
    rcases List.prefix_cons_iff.mp hq' with rfl | ⟨q, rfl, hq₂⟩
    · simp [ho, hoc, hp₁]
    · have := ih₂ hq₂
      simp only [List.countP_cons, List.countP_append, ho, hoc, hc, hp₁]
      simp only [if_true, if_false, Bool.false_eq_true]
      omega

inductive Closers : Nat → Program → Prop
  | nil {p} : Balanced p → Closers 0 p
  | cons {n c p q} : Balanced p → c.isClose = true → Closers n q → Closers (n + 1) (p ++ c :: q)

theorem closers_append {b r : Program} (hb : Balanced b) {n : Nat} (h : Closers n r) :
    Closers n (b ++ r) := by
  cases h with
  | nil hp => exact .nil (balanced_append hb hp)
  | cons hp hc h =>
    rw [← List.append_assoc]
    exact .cons (balanced_append hb hp) hc h

theorem exists_open_of_closers (q : Program) : ∀ {n : Nat} {r : Program}, Closers n r →
    q.countP Entry.isClose + n < q.countP Entry.isOpen →
      ∃ before o inner, q ++ r = before ++ o :: inner ∧ o.isOpen = true ∧ Balanced inner := by
  induction q using List.reverseRecOn with
  | nil => intro n r _ h; simp at h
  | append_singleton q e ih =>
    intro n r hr h
    rw [List.append_assoc, List.singleton_append]
    simp only [List.countP_append, List.countP_singleton] at h
    cases ho : e.isOpen with
    | true =>
      rw [Entry.isClose_of_isOpen ho, ho] at h
      cases hr with
      | nil hr => exact ⟨q, e, r, rfl, ho, hr⟩
      | @cons n c b r hb hc hr =>
        have hbraces : Balanced (e :: (b ++ c :: [])) := .braces ho hc hb .nil
        have hr' := closers_append hbraces hr
        rw [List.cons_append, List.append_assoc, List.singleton_append] at hr'
        exact ih hr' (by simp at h; omega)
    | false =>
      rw [ho] at h
      cases hc : e.isClose with
      | true =>
        rw [hc] at h
        exact ih (.cons .nil hc hr) (by simp at h; omega)
      | false =>
        rw [hc] at h
        have he : Balanced [e] := .plain ho hc .nil
        exact ih (closers_append he hr) (by simpa using h)

theorem exists_open_of_lt {q : Program} (h : q.countP Entry.isClose < q.countP Entry.isOpen) :
    ∃ before o inner, q = before ++ o :: inner ∧ o.isOpen = true ∧ Balanced inner := by
  obtain ⟨before, o, inner, hq, ho, hi⟩ := exists_open_of_closers q (.nil .nil) (by simpa using h)
  exact ⟨before, o, inner, by rw [← hq, List.append_nil], ho, hi⟩

/-! ## Matches -/

/-- Whether a closing brace stands at an index and has its opening one in front of it. -/
def HasMatch (p : Program) (index : Nat) : Prop :=
  ∃ before o inner c after, p = before ++ o :: (inner ++ c :: after) ∧ o.isOpen = true ∧
    c.isClose = true ∧ Balanced inner ∧ (before ++ o :: inner).length = index

section
variable {q r : Program} {c : Entry} (hc : c.isClose = true)
include hc

theorem hasMatch_of_lt (h : q.countP Entry.isClose < q.countP Entry.isOpen) :
    HasMatch (q ++ c :: r) q.length := by
  obtain ⟨before, o, inner, rfl, ho, hi⟩ := exists_open_of_lt h
  exact ⟨before, o, inner, c, r, by simp, ho, hc, hi, rfl⟩

theorem hasMatch_iff (hq : ∀ q', q' <+: q → q'.countP Entry.isClose ≤ q'.countP Entry.isOpen) :
    HasMatch (q ++ c :: r) q.length ↔ q.countP Entry.isClose < q.countP Entry.isOpen := by
  refine ⟨?_, hasMatch_of_lt hc⟩
  rintro ⟨before, o, inner, x, after, hp, ho, -, hi, hlen⟩
  have hsplit : before ++ o :: (inner ++ x :: after) = (before ++ o :: inner) ++ x :: after := by
    simp
  rw [hsplit] at hp
  obtain rfl : q = before ++ o :: inner := (List.append_inj hp hlen.symm).1
  have hbefore := hq before (List.prefix_append _ _)
  have hinner := countP_of_balanced hi
  simp only [List.countP_append, List.countP_cons, ho, Entry.isClose_of_isOpen ho]
  simp only [if_true, if_false, Bool.false_eq_true]
  omega

theorem hasMatch_of_balanced (h : Balanced (q ++ c :: r)) : HasMatch (q ++ c :: r) q.length := by
  have hq : q ++ [c] <+: q ++ c :: r := ⟨r, by simp⟩
  have hle := countP_le_of_isPrefix h hq
  have hco := Entry.isOpen_of_isClose hc
  simp only [List.countP_append, List.countP_singleton, hc, hco] at hle
  exact hasMatch_of_lt hc (by simp at hle; omega)

end

/-! ## The fault -/

theorem marks_of_popBlock : ∀ {s : List Item} {es : List Expr}, popBlock s es = none → marks s = 0
  | [], _, _ => rfl
  | .tree _ :: s, _, h => marks_of_popBlock (s := s) h

theorem close_of_step {table : Table} {index i : Nat} {e : Entry} {s : List Item}
    (h : step table index e s = .error (.unterminatedBlock i)) :
    ∃ l, e = .instruction (.invoke blockClose l) ∧ index = i ∧ marks s = 0 := by
  cases e with
  | foreign v => cases h
  | instruction j =>
    cases j with
    | pushNumber n l => cases h
    | pushText t l => cases h
    | invoke name l =>
      simp only [step] at h
      split at h
      · cases h
      split at h
      · next hc =>
        split at h
        · next hp =>
          cases h
          exact ⟨l, by rw [hc], rfl, marks_of_popBlock hp⟩
        · cases h
      · split at h
        · cases h
        · split at h <;> cases h

theorem exists_run_of_unterminatedBlock {table : Table} {p : Program} {i : Nat}
    (h : (reconstruct table p).outcome = .error (.unterminatedBlock i)) :
    ∃ q l r s, p = q ++ .instruction (.invoke blockClose l) :: r ∧ q.length = i ∧
      run table 0 q [] = .ok s ∧ marks s = 0 := by
  have hk := known_of_isShortage h rfl
  rw [reconstruct_eq_run hk] at h
  have hrun : run table 0 p [] = .error (.unterminatedBlock i) := by
    cases hr : run table 0 p [] with
    | ok s => rw [hr] at h; cases h
    | error fault => rw [hr] at h; cases h; rfl
  obtain ⟨q, e, r, s, rfl, hq, he⟩ := run_eq_error_iff.mp hrun
  obtain ⟨l, rfl, hi, hm⟩ := close_of_step he
  exact ⟨q, l, r, s, rfl, by omega, hq, hm⟩

/-- **Refused braces.** What stands in front of a closing brace that is refused stands for a
forest. The brace has no match exactly when this part of the program is the code of the forest, so
that no opcode takes operands across a brace. -/
theorem hasMatch_iff_of_unterminatedBlock {table : Table} {p : Program} {i : Nat}
    (h : (reconstruct table p).outcome = .error (.unterminatedBlock i)) :
    ∃ q l r forest, p = q ++ .instruction (.invoke blockClose l) :: r ∧ q.length = i ∧
      (reconstruct table q).outcome = .ok forest ∧
      (HasMatch p i ↔ linearizeAll forest ≠ q.map Entry.unlabelOpen) ∧
      (Balanced p → linearizeAll forest ≠ q.map Entry.unlabelOpen) := by
  have hk := known_of_isShortage h rfl
  obtain ⟨q, l, r, s, rfl, rfl, hs, hm⟩ := exists_run_of_unterminatedBlock h
  have hforest : (reconstruct table q).outcome = .ok (trees s) := by
    rw [reconstruct_eq_run fun e he => hk e (by simp [he]), hs]
    rfl
  have hprefix : ∀ q', q' <+: q → q'.countP Entry.isClose ≤ q'.countP Entry.isOpen := by
    intro q' hq'
    obtain ⟨t, ht⟩ := run_of_isPrefix hs hq'
    have := (balance_of_run ht).le
    omega
  -- code opens no brace that it does not close, so the counts decide both questions
  have hcode : linearizeAll (trees s) = q.map Entry.unlabelOpen ↔
      q.countP Entry.isOpen = q.countP Entry.isClose := by
    constructor
    · intro hq
      have hbal := balanced_of_unlabelOpen (balanced_linearizeAll (wellFormedAll_of_run hs)) hq.symm
      exact (countP_of_balanced hbal).symm
    · intro hq
      rw [← code_of_marks hm]
      exact (balance_of_run hs).eq (by omega)
  have hc : (Entry.instruction (.invoke blockClose l)).isClose = true := by simp
  have hmatch : HasMatch (q ++ .instruction (.invoke blockClose l) :: r) q.length ↔
      linearizeAll (trees s) ≠ q.map Entry.unlabelOpen := by
    have hle := (balance_of_run hs).le
    rw [hasMatch_iff hc hprefix, Ne, hcode]
    omega
  exact ⟨q, l, r, trees s, rfl, rfl, hforest, hmatch,
    fun hbal => hmatch.mp (hasMatch_of_balanced hc hbal)⟩

/-- The sum inside the block takes its operands from in front of it, and the brace that it takes
them across is missing when the block looks for it. -/
theorem unterminatedBlock_of_balanced :
    let p : Program := [.instruction (.pushNumber (.int 5) .null),
      .instruction (.pushNumber (.int 6) .null), .instruction (.invoke blockOpen .null),
      .instruction (.invoke "+" .null), .instruction (.invoke blockClose .null)]
    Balanced p ∧ HasMatch p 4 ∧
      (reconstruct .builtin p).outcome = .error (.unterminatedBlock 4) := by
  intro p
  have hsum : Balanced [.instruction (.invoke "+" .null)] := .plain rfl rfl .nil
  have hblock : Balanced (p.drop 2) := .braces rfl rfl hsum .nil
  have hp : Balanced p := .plain rfl rfl (.plain rfl rfl hblock)
  exact ⟨hp, hasMatch_of_balanced (q := p.take 4) (r := []) rfl hp, rfl⟩

theorem hasMatch_iff_of_crossing :
    let p : Program := [.instruction (.pushNumber (.int 5) .null),
      .instruction (.pushNumber (.int 6) .null), .instruction (.invoke blockOpen .null),
      .instruction (.invoke "+" .null), .instruction (.invoke blockClose .null)]
    (reconstruct .builtin p).outcome = .error (.unterminatedBlock 4) ∧
      ∃ q l r forest, p = q ++ .instruction (.invoke blockClose l) :: r ∧ q.length = 4 ∧
        (reconstruct .builtin q).outcome = .ok forest ∧
        (HasMatch p 4 ↔ linearizeAll forest ≠ q.map Entry.unlabelOpen) := by
  intro p
  have h : (reconstruct .builtin p).outcome = .error (.unterminatedBlock 4) := rfl
  obtain ⟨q, l, r, forest, hp, hq, hforest, hmatch, -⟩ := hasMatch_iff_of_unterminatedBlock h
  exact ⟨h, q, l, r, forest, hp, hq, hforest, hmatch⟩

end StackForest
