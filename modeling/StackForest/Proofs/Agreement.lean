import StackForest.Proofs.Simulation

/-!
# Tables that agree

A scan reads no more of a definition than its two counts, and none at all for a brace. Tables with
the same counts for the names of a program therefore give it the same run.
-/

namespace StackForest

/-- How much a name consumes and produces, if the table knows it. -/
def Table.counts? (table : Table) (name : String) : Option (Nat × Nat) :=
  (table.lookup? name).map fun effect => (effect.consumes, effect.produces)

/-- Whether two tables have the same counts for what an entry invokes. Braces are not looked up. -/
def Entry.agrees (t₁ t₂ : Table) : Entry → Bool
  | instruction (.invoke name _) =>
    name == blockOpen || name == blockClose || t₁.counts? name == t₂.counts? name
  | _ => true

section
variable {table : Table} {name : String}

theorem counts?_of_lookup {effect : Effect} (h : table.lookup? name = some effect) :
    table.counts? name = some (effect.consumes, effect.produces) := by
  rw [Table.counts?, h]
  rfl

theorem lookup_of_counts? {c p : Nat} (h : table.counts? name = some (c, p)) :
    ∃ effect, table.lookup? name = some effect ∧ effect.consumes = c ∧ effect.produces = p := by
  obtain ⟨effect, hl, hcounts⟩ := Option.map_eq_some_iff.mp h
  cases hcounts
  exact ⟨effect, hl, rfl, rfl⟩

end

section
variable {t₁ t₂ : Table}

theorem begun_of_agrees {e : Entry} (h : e.agrees t₁ t₂ = true) (index : Nat) :
    Lift (Begun.Related (· = ·) (· = ·)) (Begun.ofEntry t₁ index e)
      (Begun.ofEntry t₂ index e) := by
  cases e with
  | foreign v => exact .error _
  | instruction i =>
    cases i with
    | pushNumber n l => exact .ok (.leaf rfl)
    | pushText s l => exact .ok (.leaf rfl)
    | invoke name l =>
      simp only [Begun.ofEntry]
      by_cases hc : name = blockClose
      · rw [if_pos hc, if_pos hc]
        exact .ok (.frame (.block rfl .nil))
      by_cases ho : name = blockOpen
      · rw [if_neg hc, if_neg hc, if_pos ho, if_pos ho]
        exact .ok .nothing
      rw [if_neg hc, if_neg hc, if_neg ho, if_neg ho]
      have hcounts : t₁.counts? name = t₂.counts? name := by
        simpa [Entry.agrees, ho, hc] using h
      cases hl : t₁.lookup? name with
      | none =>
        rw [Table.counts?, hl] at hcounts
        rw [Option.map_eq_none_iff.mp hcounts.symm]
        exact .error _
      | some effect =>
        rw [counts?_of_lookup hl] at hcounts
        obtain ⟨other, hother, hconsumes, hproduces⟩ := lookup_of_counts? hcounts.symm
        rw [hother]
        exact .ok (.frame (.call hconsumes.symm hproduces.symm rfl .nil))

theorem simulation_of_agrees : Simulation t₁ t₂ (fun x y => x = y ∧ x.agrees t₁ t₂ = true)
    (· = ·) (· = ·) where
  isBlock := fun h => congrArg Expr.isBlock h
  call := by
    rintro n c p l _ es fs rfl hes
    rw [List.forall₂_eq_eq_eq] at hes
    rw [hes]
  block := by
    rintro l _ es fs rfl hes
    rw [List.forall₂_eq_eq_eq] at hes
    rw [hes]
  nextDepth := by
    rintro x _ ⟨rfl, -⟩ depth
    rfl
  begun := by
    rintro x _ ⟨rfl, h⟩ index
    exact begun_of_agrees h index

/-- **Only counts matter.** Two tables with the same counts for every name that a program invokes,
braces apart, give it the same forest or the same fault, and the same visits. -/
theorem reconstruct_congr {p : Program} (h : ∀ e ∈ p, e.agrees t₁ t₂ = true) :
    reconstruct t₁ p = reconstruct t₂ p := by
  have halike : List.Forall₂ (fun x y => x = y ∧ x.agrees t₁ t₂ = true) p p :=
    List.forall₂_same.mpr fun e he => ⟨rfl, h e he⟩
  exact Run.eq_of_related (simulation_of_agrees.reconstruct halike)

end

/-- A table that retags a sum, redefines the braces and knows one more name, for a program with a
forest and for one with a name that neither table knows. -/
theorem reconstruct_congr_of_retagged :
    let t : Table := .extend [("+", ⟨["a", "b"], ["c"]⟩), (blockOpen, ⟨["a"], []⟩),
      (blockClose, ⟨["a", "a"], ["a"]⟩), ("rot", ⟨["a"], []⟩)]
    let p : Program := [.instruction (.pushNumber (.int 5) .null),
      .instruction (.invoke blockOpen .null), .instruction (.pushNumber (.int 6) .null),
      .instruction (.invoke blockClose (.text "b")), .instruction (.pushNumber (.int 7) .null),
      .instruction (.invoke "+" .null)]
    let q : Program := .instruction (.invoke "swap" .null) :: p
    (∀ e ∈ q, e.agrees t .builtin = true) ∧ reconstruct t p = reconstruct .builtin p ∧
      reconstruct t q = reconstruct .builtin q := by
  intro t p q
  have hq : ∀ e ∈ q, e.agrees t .builtin = true := by decide
  have hp : ∀ e ∈ p, e.agrees t .builtin = true := fun e he => hq e (List.mem_cons_of_mem _ he)
  exact ⟨hq, reconstruct_congr hp, reconstruct_congr hq⟩

end StackForest
