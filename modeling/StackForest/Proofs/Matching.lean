import StackForest.Proofs.Linear

/-!
# Matching braces

A program that stands for a forest has no closing brace without an opening one in front of it. If
it has as many of the ones as of the others, it is the code of its forest.
-/

namespace StackForest

open ShiftReduce StackForest.Expr

/-! ## Code of a stack -/

def code : List Item → Program
  | [] => []
  | .tree e :: s => code s ++ linearize e
  | .mark :: s => code s ++ [openEntry]

theorem code_append : ∀ s t : List Item, code (s ++ t) = code t ++ code s
  | [], t => by simp [code]
  | .tree e :: s, t => by simp [code, code_append s t]
  | .mark :: s, t => by simp [code, code_append s t]

theorem code_of_marks : ∀ {s : List Item}, marks s = 0 → code s = linearizeAll (trees s)
  | [], _ => rfl
  | .tree e :: s, h => by
    simp [code, trees, linearizeAll_append, linearizeAll, code_of_marks (s := s) h]

/-- A program part and the stack behind it. The opening braces of the part are those that are
closed, those that still stand open and those that opcodes took operands across; without any of the
last kind the part is the code of the stack. -/
structure Balance (p : Program) (s : List Item) : Prop where
  le : p.countP Entry.isClose + marks s ≤ p.countP Entry.isOpen
  eq : p.countP Entry.isOpen = p.countP Entry.isClose + marks s → code s = p.map Entry.unlabelOpen

theorem balance_leaf {p : Program} {s : List Item} {e : Entry} {a : Expr} (h : Balance p s)
    (ho : e.isOpen = false) (hc : e.isClose = false) (ha : linearize a = [e]) :
    Balance (p ++ [e]) (.tree a :: s) := by
  obtain ⟨hle, heq⟩ := h
  have hu : e.unlabelOpen = e := by simp [Entry.unlabelOpen, ho]
  constructor
  · simpa [marks, ho, hc] using hle
  · intro h
    rw [code, heq (by simpa [marks, ho, hc] using h), ha, List.map_append, List.map_singleton, hu]

theorem balance_step {table : Table} {p : Program} {e : Entry} {s r : List Item}
    (h : Balance p s) (hs : Shift table e s r) : Balance (p ++ [e]) r := by
  cases hs with
  | number => exact balance_leaf h rfl rfl rfl
  | text => exact balance_leaf h rfl rfl rfl
  | opening =>
    obtain ⟨hle, heq⟩ := h
    constructor
    · simp [marks, open_ne_close]; omega
    · intro h
      simp [marks, open_ne_close] at h
      simp [code, heq (by omega), Entry.unlabelOpen]
  | @closing l t s hm =>
    obtain ⟨hle, heq⟩ := h
    rw [marks_append, marks, hm] at hle heq
    constructor
    · simp [marks, open_ne_close.symm]; omega
    · intro h
      simp [marks, open_ne_close.symm] at h
      have hcode := heq (by omega)
      rw [code_append, code, code_of_marks hm] at hcode
      simp [code, ofChildren, linearize, Entry.unlabelOpen, open_ne_close.symm, ← hcode]
  | @opcode name effect l t s ho hc hl ht =>
    obtain ⟨hle, heq⟩ := h
    rw [marks_append] at hle heq
    constructor
    · simp [marks, ho, hc]; omega
    · intro h
      simp [marks, ho, hc] at h
      have hm : marks t = 0 := by omega
      have hcode := heq (by omega)
      rw [code_append, code_of_marks hm] at hcode
      simp [code, linearize, Entry.unlabelOpen, ho, ← hcode]

theorem balance_of_run {table : Table} {p : Program} {s : List Item}
    (h : run table 0 p [] = .ok s) : Balance p s :=
  run_induction ⟨Nat.le_refl _, fun _ => rfl⟩ balance_step h

theorem run_of_isPrefix {table : Table} {p q : Program} {s : List Item}
    (h : run table 0 p [] = .ok s) (hq : q <+: p) : ∃ r, run table 0 q [] = .ok r := by
  obtain ⟨t, rfl⟩ := hq
  rw [run_append] at h
  obtain ⟨r, hr, _⟩ := exists_of_bind_eq_ok h
  exact ⟨r, hr⟩

/-! ## Blocks -/

mutual
theorem balanced_linearize {table : Table} : ∀ {e : Expr}, wellFormed table e = true →
    Balanced (linearize e)
  | .literal .number (.number n) l, _ => .plain rfl rfl .nil
  | .literal .text (.text t) l, _ => .plain rfl rfl .nil
  | .block c q l es, h => by
    simp only [wellFormed, Bool.and_eq_true] at h
    exact .braces rfl (by simp) (balanced_linearizeAll h.2) .nil
  | .call name c q l es, h => by
    simp only [wellFormed, Bool.and_eq_true, bne_iff_ne] at h
    obtain ⟨⟨⟨⟨ho, hc⟩, _⟩, _⟩, hes⟩ := h
    exact balanced_append (balanced_linearizeAll hes) (.plain (by simp [ho]) (by simp [hc]) .nil)
theorem balanced_linearizeAll {table : Table} : ∀ {es : List Expr}, wellFormedAll table es = true →
    Balanced (linearizeAll es)
  | [], _ => .nil
  | e :: es, h => by
    simp only [wellFormedAll, Bool.and_eq_true] at h
    exact balanced_append (balanced_linearize h.1) (balanced_linearizeAll h.2)
end

theorem unlabelOpen_eq_open {e : Entry} (h : e.unlabelOpen = openEntry) : e.isOpen = true := by
  rw [← isOpen_unlabelOpen, h]; rfl

theorem unlabelOpen_eq_close {e : Entry} {l : Value}
    (h : e.unlabelOpen = .instruction (.invoke blockClose l)) :
    e = .instruction (.invoke blockClose l) := by
  unfold Entry.unlabelOpen at h
  split at h
  · injection h with h
    injection h with h
    exact absurd h open_ne_close
  · exact h

theorem braces_of_mem {table : Table} {p : Program} {forest : List Expr} {c q l es}
    (hw : wellFormedAll table forest = true)
    (hp : linearizeAll forest = p.map Entry.unlabelOpen)
    (hb : .block c q l es ∈ postorderAll forest) :
    ∃ before o inner after,
      p = before ++ o :: (inner ++ .instruction (.invoke blockClose l) :: after) ∧
      o.isOpen = true ∧ Balanced inner ∧ linearizeAll es = inner.map Entry.unlabelOpen := by
  obtain ⟨hwb, u, v, huv⟩ := node_of_forest hw hb
  rw [huv, linearize] at hp
  obtain ⟨before, r, rfl, -, hr⟩ := List.map_eq_append_iff.mp hp.symm
  simp only [List.cons_append, List.append_assoc, List.nil_append] at hr
  obtain ⟨o, r, rfl, ho, hr⟩ := List.map_eq_cons_iff.mp hr
  obtain ⟨inner, r, rfl, hi, hr⟩ := List.map_eq_append_iff.mp hr
  obtain ⟨x, after, rfl, hx, -⟩ := List.map_eq_cons_iff.mp hr
  have hbal : Balanced (linearizeAll es) := balanced_linearizeAll (wellFormedAll_children hwb)
  refine ⟨before, o, inner, after, ?_, unlabelOpen_eq_open ho, balanced_of_unlabelOpen hbal hi,
    hi.symm⟩
  rw [unlabelOpen_eq_close hx]

/-- **Matching.** A program that stands for a forest closes no brace that it did not open. If it
closes all of them, it is the code of its forest, up to the labels of opening braces, and every
block holds what stands between two braces that match. -/
theorem linearize_reconstruct {table : Table} {p : Program} {forest : List Expr}
    (h : (reconstruct table p).outcome = .ok forest) :
    (∀ q, q <+: p → q.countP Entry.isClose ≤ q.countP Entry.isOpen) ∧
      (p.countP Entry.isOpen = p.countP Entry.isClose →
        linearizeAll forest = p.map Entry.unlabelOpen ∧
        ∀ c q l es, .block c q l es ∈ postorderAll forest → ∃ before o inner after,
          p = before ++ o :: (inner ++ .instruction (.invoke blockClose l) :: after) ∧
          o.isOpen = true ∧ Balanced inner ∧ linearizeAll es = inner.map Entry.unlabelOpen) := by
  obtain ⟨s, hs, rfl⟩ := exists_run_of_reconstruct h
  refine ⟨fun q hq => ?_, fun heq => ?_⟩
  · obtain ⟨r, hr⟩ := run_of_isPrefix hs hq
    have := (balance_of_run hr).le
    omega
  · obtain ⟨hle, hcode⟩ := balance_of_run hs
    have hm : marks s = 0 := by omega
    have hp : linearizeAll (trees s) = p.map Entry.unlabelOpen := by
      rw [← code_of_marks hm, hcode (by omega)]
    exact ⟨hp, fun c q l es hb => braces_of_mem (wellFormedAll_of_run hs) hp hb⟩

theorem linearize_reconstruct_of_nested :
    let p : Program := [.instruction (.invoke blockOpen (.text "a")),
      .instruction (.pushNumber (.int 1) .null), .instruction (.invoke blockOpen .null),
      .instruction (.pushText "x" .null), .instruction (.invoke blockClose (.text "b")),
      .instruction (.invoke "pop" .null), .instruction (.invoke blockClose .null)]
    let forest : List Expr := [.block 1 0 .null [.call "pop" 1 0 .null
      [.literal .number (.number (.int 1)) .null,
        .block 0 1 (.text "b") [.literal .text (.text "x") .null]]]]
    (reconstruct .builtin p).outcome = .ok forest ∧
      p.countP Entry.isOpen = p.countP Entry.isClose ∧
      (∀ q, q <+: p → q.countP Entry.isClose ≤ q.countP Entry.isOpen) ∧
      linearizeAll forest = p.map Entry.unlabelOpen := by
  intro p forest
  have h : (reconstruct .builtin p).outcome = .ok forest := rfl
  have hc : p.countP Entry.isOpen = p.countP Entry.isClose := by decide
  exact ⟨h, hc, (linearize_reconstruct h).1, ((linearize_reconstruct h).2 hc).1⟩

end StackForest
