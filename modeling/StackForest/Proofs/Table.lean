import StackForest.Effect.Table
import StackForest.Proofs.Fields

/-!
# Opcode tables

What is found in a table that is made of definitions, and the order of its names.
-/

namespace StackForest

def codePoints (s : String) : List Nat := s.toList.map Char.toNat

namespace Text

theorem ascending_cons_iff {c d : Char} {cs ds : List Char} :
    ascending (c :: cs) (d :: ds) = true ↔
      c = d ∧ ascending cs ds = true ∨ c.toNat < d.toNat := by
  rw [ascending]
  by_cases h : c = d
  · simp [h]
  · simp [h]

theorem ascending_trans {as bs cs : List Char} (h : ascending as bs = true)
    (h' : ascending bs cs = true) : ascending as cs = true := by
  induction as generalizing bs cs with
  | nil => rfl
  | cons a as ih =>
    cases bs with
    | nil => cases h
    | cons b bs =>
      cases cs with
      | nil => cases h'
      | cons c cs =>
        rw [ascending_cons_iff] at h h' ⊢
        rcases h with ⟨rfl, h⟩ | h
        · exact h'.imp_left fun ⟨heq, h'⟩ => ⟨heq, ih h h'⟩
        · rcases h' with ⟨rfl, -⟩ | h'
          · exact .inr h
          · exact .inr (Nat.lt_trans h h')

theorem ascending_total (cs ds : List Char) :
    ascending cs ds = true ∨ ascending ds cs = true := by
  induction cs generalizing ds with
  | nil => exact .inl rfl
  | cons c cs ih =>
    cases ds with
    | nil => exact .inr rfl
    | cons d ds =>
      rw [ascending_cons_iff, ascending_cons_iff]
      rcases Nat.lt_trichotomy c.toNat d.toNat with h | h | h
      · exact .inl (.inr h)
      · have heq := Char.toNat_inj.mp h
        exact (ih ds).imp (fun h => .inl ⟨heq, h⟩) fun h => .inl ⟨heq.symm, h⟩
      · exact .inr (.inr h)

theorem lex_of_ascending {cs ds : List Char} (h : ascending cs ds = true) (hne : cs ≠ ds) :
    List.Lex (· < ·) (cs.map Char.toNat) (ds.map Char.toNat) := by
  induction cs generalizing ds with
  | nil =>
    cases ds with
    | nil => exact absurd rfl hne
    | cons d ds => exact .nil
  | cons c cs ih =>
    cases ds with
    | nil => cases h
    | cons d ds =>
      rcases ascending_cons_iff.mp h with ⟨rfl, htail⟩ | hlt
      · exact .cons (ih htail fun heq => hne (congrArg (c :: ·) heq))
      · exact .rel hlt

end Text

namespace Table

/-- What the names of a table are: the names with an effect, each once, in the order of their code
points. -/
structure ListsNames (table : Table) : Prop where
  ascending : table.names.Pairwise fun a b => List.Lex (· < ·) (codePoints a) (codePoints b)
  length : table.names.length = table.size
  mem_iff : ∀ name, name ∈ table.names ↔ table.lookup? name ≠ none

theorem listsNames_of_nodup {table : Table} (h : (table.entries.map Prod.fst).Nodup) :
    table.ListsNames := by
  constructor
  · have hsorted : table.names.Pairwise fun a b => Text.ascending a.toList b.toList = true := by
      refine List.pairwise_mergeSort (fun a b c => ?_) (fun a b => ?_) _
      · exact Text.ascending_trans
      · rw [Bool.or_eq_true]
        exact Text.ascending_total _ _
    have hnodup : table.names.Nodup := (List.mergeSort_perm _ _).nodup_iff.mpr h
    refine (hsorted.and hnodup).imp fun ⟨hle, hne⟩ => ?_
    exact Text.lex_of_ascending hle fun heq => hne (String.toList_inj.mp heq)
  · rw [names, List.length_mergeSort, List.length_map, size]
  · intro name
    rw [names, List.mem_mergeSort, lookup?, ne_eq, Fields.get?_eq_none_iff, Decidable.not_not]

theorem listsNames_extend (defs : Definitions) : (extend defs).ListsNames := by
  have hbuiltin : (builtin.entries.map Prod.fst).Nodup := by decide
  exact listsNames_of_nodup (Fields.nodup_putAll hbuiltin defs)

theorem lookup?_extend (defs : Definitions) (name : String) :
    (extend defs).lookup? name = (Fields.get? name defs.reverse).or (builtin.lookup? name) :=
  Fields.get?_putAll name builtin.entries defs

end Table
end StackForest
