import StackForest.Proofs.Visits

/-!
# Making up for a shortage

A program that misses operands or an opening brace is the end of one that does not. What one entry
lacks goes below everything that the entries in front of it have already been given (`run_below`).
Nothing makes up for an unknown entry.
-/

namespace StackForest

open ShiftReduce

/-- Whether an entry is a push of a number or an opening brace. -/
def Entry.isSupply : Entry → Bool
  | instruction (.pushNumber _ _) => true
  | e => e.isOpen

theorem known_of_isSupply {table : Table} : ∀ {e : Entry}, e.isSupply = true →
    e.isKnown table = true
  | .instruction (.pushNumber _ _), _ => rfl
  | .instruction (.invoke name l), h => by
    have ho : name = blockOpen := beq_iff_eq.mp h
    rw [ho]
    rfl

namespace ShiftReduce

/-! ## More at the bottom of a stack -/

section
variable (below : List Item)

theorem popBlock_below : ∀ {s r : List Item} {es fs : List Expr}, popBlock s es = some (fs, r) →
    popBlock (s ++ below) es = some (fs, r ++ below)
  | .mark :: s, r, es, fs, h => by
    cases h
    rfl
  | .tree e :: s, r, es, fs, h => popBlock_below (s := s) h

theorem popOperands_below : ∀ {k : Nat} {s r : List Item} {es fs : List Expr},
    popOperands k s es = some (fs, r) → popOperands k (s ++ below) es = some (fs, r ++ below)
  | 0, s, r, es, fs, h => by
    rw [popOperands] at h
    cases h
    rw [popOperands]
  | k + 1, .mark :: s, r, es, fs, h => by
    rw [popOperands] at h
    rw [List.cons_append, popOperands]
    exact popOperands_below h
  | k + 1, .tree e :: s, r, es, fs, h => by
    rw [popOperands] at h
    rw [List.cons_append, popOperands]
    exact popOperands_below h

variable {table : Table} {i : Nat} (j : Nat)

theorem step_below {e : Entry} {s r : List Item} (h : step table i e s = .ok r) :
    step table j e (s ++ below) = .ok (r ++ below) := by
  cases e with
  | foreign v => cases h
  | instruction instr =>
    cases instr with
    | pushNumber n l => cases h; rfl
    | pushText t l => cases h; rfl
    | invoke name l =>
      simp only [step] at h ⊢
      by_cases ho : name = blockOpen
      · rw [if_pos ho] at h ⊢
        cases h
        rfl
      by_cases hc : name = blockClose
      · rw [if_neg ho, if_pos hc] at h ⊢
        cases hp : popBlock s [] with
        | none => rw [hp] at h; cases h
        | some q =>
          rw [hp] at h
          rw [popBlock_below below hp]
          cases h
          rfl
      rw [if_neg ho, if_neg hc] at h ⊢
      cases hl : table.lookup? name with
      | none => rw [hl] at h; cases h
      | some effect =>
        simp only [hl] at h ⊢
        cases hp : popOperands effect.consumes s [] with
        | none => rw [hp] at h; cases h
        | some q =>
          rw [hp] at h
          rw [popOperands_below below hp]
          cases h
          rfl

theorem run_below : ∀ {p : Program} {i : Nat} {s r : List Item}, run table i p s = .ok r →
    ∀ j, run table j p (s ++ below) = .ok (r ++ below)
  | [], i, s, r, h, j => by
    cases h
    rfl
  | e :: p, i, s, r, h, j => by
    obtain ⟨t, ht, hr⟩ := exists_of_bind_eq_ok h
    rw [run, step_below below j ht]
    exact run_below hr (j + 1)

end

/-! ## What one entry lacks -/

/-- Numbers and opening braces that leave `below` on the empty stack. -/
structure Supplies (table : Table) (a : Program) (below : List Item) : Prop where
  supply : ∀ e ∈ a, e.isSupply = true
  run : run table 0 a [] = .ok below

def supplyNumber : Entry := .instruction (.pushNumber (.int 0) .null)

def suppliedNumber : Item := .tree (.literal .number (.number (.int 0)) .null)

theorem run_replicate (table : Table) (k : Nat) : ∀ (i : Nat) (s : List Item),
    run table i (List.replicate k supplyNumber) s = .ok (List.replicate k suppliedNumber ++ s) := by
  induction k with
  | zero => intro i s; rfl
  | succ k ih =>
    intro i s
    rw [List.replicate_succ, List.replicate_succ', List.append_assoc]
    exact ih (i + 1) (suppliedNumber :: s)

section
variable {table : Table}

theorem supplies_nil : Supplies table [] [] := ⟨by simp, rfl⟩

theorem supplies_brace : Supplies table [openEntry] [.mark] :=
  ⟨List.forall_mem_singleton.mpr rfl, rfl⟩

theorem supplies_numbers (k : Nat) :
    Supplies table (List.replicate k supplyNumber) (List.replicate k suppliedNumber) := by
  constructor
  · intro e he
    rw [List.eq_of_mem_replicate he]
    rfl
  · rw [run_replicate, List.append_nil]

end

theorem exists_popBlock : ∀ (s : List Item) (es : List Expr),
    ∃ q, popBlock (s ++ [.mark]) es = some q
  | [], _ => ⟨_, rfl⟩
  | .mark :: _, _ => ⟨_, rfl⟩
  | .tree e :: s, es => exists_popBlock s (e :: es)

theorem exists_popOperands : ∀ {n k : Nat}, k ≤ n → ∀ (s : List Item) (es : List Expr),
    ∃ q, popOperands k (s ++ List.replicate n suppliedNumber) es = some q
  | _, 0, _, _, _ => ⟨_, by rw [popOperands]⟩
  | n + 1, k + 1, h, [], es => by
    rw [List.nil_append, List.replicate_succ, suppliedNumber, popOperands]
    exact exists_popOperands (Nat.le_of_succ_le_succ h) [] _
  | n, k + 1, h, .mark :: s, es => by
    rw [List.cons_append, popOperands]
    exact exists_popOperands h s es
  | n, k + 1, h, .tree e :: s, es => by
    rw [List.cons_append, popOperands]
    cases e.isBlock with
    | true => exact exists_popOperands h s _
    | false => exact exists_popOperands (Nat.le_of_succ_le h) s _

theorem exists_step {table : Table} {e : Entry} (he : e.isKnown table = true) (s : List Item) :
    ∃ a below, Supplies table a below ∧ ∀ i, ∃ r, step table i e (s ++ below) = .ok r := by
  have hnone (h : ∀ i, ∃ r, step table i e s = .ok r) :
      ∃ a below, Supplies table a below ∧ ∀ i, ∃ r, step table i e (s ++ below) = .ok r :=
    ⟨[], [], supplies_nil, by simpa using h⟩
  cases e with
  | foreign v => cases he
  | instruction instr =>
    cases instr with
    | pushNumber n l => exact hnone fun _ => ⟨_, rfl⟩
    | pushText t l => exact hnone fun _ => ⟨_, rfl⟩
    | invoke name l =>
      by_cases ho : name = blockOpen
      · exact hnone fun _ => ⟨_, by rw [step, if_pos ho]⟩
      by_cases hc : name = blockClose
      · -- one brace at the bottom is enough, whatever block it belongs to
        refine ⟨_, _, supplies_brace, fun i => ?_⟩
        obtain ⟨q, hq⟩ := exists_popBlock s []
        rw [step, if_neg ho, if_pos hc, hq]
        exact ⟨_, rfl⟩
      obtain ⟨effect, hl⟩ : ∃ effect, table.lookup? name = some effect := by
        simpa [Entry.isKnown, ho, hc, Option.isSome_iff_exists] using he
      refine ⟨_, _, supplies_numbers effect.consumes, fun i => ?_⟩
      obtain ⟨q, hq⟩ := exists_popOperands (Nat.le_refl effect.consumes) s []
      simp only [step, if_neg ho, if_neg hc, hl, hq]
      exact ⟨_, rfl⟩

/-! ## What a program lacks -/

theorem exists_supply {table : Table} {p : Program} (h : ∀ e ∈ p, e.isKnown table = true) :
    ∃ a s, (∀ e ∈ a, e.isSupply = true) ∧ run table 0 (a ++ p) [] = .ok s := by
  induction p using List.reverseRecOn with
  | nil => exact ⟨[], [], by simp, rfl⟩
  | append_singleton p e ih =>
    obtain ⟨a, s, ha, hs⟩ := ih fun x hx => h x (by simp [hx])
    obtain ⟨b, below, hb, hstep⟩ := exists_step (h e (by simp)) s
    -- what `e` lacks goes below the stack that all the others leave
    have hrun : run table 0 (b ++ (a ++ p)) [] = .ok (s ++ below) := by
      rw [run_append, hb.run]
      exact run_below below hs _
    obtain ⟨r, hr⟩ := hstep (0 + (b ++ (a ++ p)).length)
    have hassoc : b ++ a ++ (p ++ [e]) = b ++ (a ++ p) ++ [e] := by simp
    refine ⟨b ++ a, r, ?_, ?_⟩
    · intro x hx
      exact (List.mem_append.mp hx).elim (hb.supply x) (ha x)
    · rw [hassoc, run_snoc, hrun]
      exact hr

end ShiftReduce

section
variable {table : Table} {p : Program} {fault : TreeFault}

theorem exists_supply_of_isShortage (h : (reconstruct table p).outcome = .error fault)
    (hf : fault.isShortage = true) : ∃ a forest, (∀ e ∈ a, e.isSupply = true) ∧
      (reconstruct table (a ++ p)).outcome = .ok forest := by
  have hp := known_of_isShortage h hf
  obtain ⟨a, s, ha, hs⟩ := exists_supply hp
  have hk : ∀ e ∈ a ++ p, e.isKnown table = true := by
    intro e he
    exact (List.mem_append.mp he).elim (fun he => known_of_isSupply (ha e he)) (hp e)
  refine ⟨a, trees s, ha, ?_⟩
  rw [reconstruct_eq_run hk, hs]
  rfl

theorem reconstruct_append_ne_ok (h : (reconstruct table p).outcome = .error fault)
    (hf : fault.isShortage = false) (a : Program) (forest : List Expr) :
    (reconstruct table (a ++ p)).outcome ≠ .ok forest := by
  intro hok
  have hp : ∀ e ∈ p, e.isKnown table = true := by
    intro e he
    exact known_of_reconstruct hok e (List.mem_append_right a he)
  rw [(reconstruct_known hp).2 fault h] at hf
  cases hf

end

/-- **Shortages.** A program fails for an unknown entry exactly when no program in front of it
helps. When it fails for a missing operand or an unterminated block, numbers and opening braces in
front of it help. -/
theorem fails_for_good_iff (table : Table) (p : Program) :
    ((∃ fault, (reconstruct table p).outcome = .error fault ∧ fault.isShortage = false) ↔
      ∀ a forest, (reconstruct table (a ++ p)).outcome ≠ .ok forest) ∧
    ∀ fault, (reconstruct table p).outcome = .error fault → fault.isShortage = true →
      ∃ a forest, (∀ e ∈ a, e.isSupply = true) ∧
        (reconstruct table (a ++ p)).outcome = .ok forest := by
  refine ⟨⟨?_, ?_⟩, fun fault => exists_supply_of_isShortage⟩
  · rintro ⟨fault, h, hf⟩
    exact reconstruct_append_ne_ok h hf
  · intro hne
    cases h : (reconstruct table p).outcome with
    | ok forest => exact absurd h (hne [] forest)
    | error fault =>
      refine ⟨fault, rfl, Bool.eq_false_iff.mpr fun hf => ?_⟩
      obtain ⟨a, forest, -, hok⟩ := exists_supply_of_isShortage h hf
      exact hne a forest hok

theorem fails_for_good_iff_of_unknownName :
    let p : Program := [.instruction (.invoke "+" .null), .instruction (.invoke blockClose .null),
      .instruction (.pushNumber (.int 3) .null), .instruction (.invoke "+" .null),
      .instruction (.invoke blockClose .null)]
    let q : Program := [.instruction (.invoke "rot" .null), .instruction (.invoke blockClose .null)]
    ((reconstruct .builtin p).outcome = .error (.missingOperand "+" 0) ∧
      (TreeFault.missingOperand "+" 0).isShortage = true ∧
      ∃ a forest, (∀ e ∈ a, e.isSupply = true) ∧
        (reconstruct .builtin (a ++ p)).outcome = .ok forest) ∧
    (reconstruct .builtin q).outcome = .error (.unknownOpcode "rot") ∧
      ∀ a forest, (reconstruct .builtin (a ++ q)).outcome ≠ .ok forest := by
  intro p q
  have hp : (reconstruct .builtin p).outcome = .error (.missingOperand "+" 0) := rfl
  have hq : (reconstruct .builtin q).outcome = .error (.unknownOpcode "rot") := rfl
  exact ⟨⟨hp, rfl, (fails_for_good_iff .builtin p).2 _ hp rfl⟩, hq,
    (fails_for_good_iff .builtin q).1.mp ⟨_, hq, rfl⟩⟩

end StackForest
