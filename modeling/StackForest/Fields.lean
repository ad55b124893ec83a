/-!
# Fields

Association lists in the order in which their keys first occurred.
-/

namespace StackForest.Fields

variable {κ α : Type} [DecidableEq κ]

def get? (key : κ) (fields : List (κ × α)) : Option α :=
  (fields.find? fun f => f.1 = key).map (·.2)

/-- Sets a field: a key that is there keeps its place, a new one goes to the end. -/
def put (key : κ) (a : α) : List (κ × α) → List (κ × α)
  | [] => [(key, a)]
  | f :: fields => if f.1 = key then (key, a) :: fields else f :: put key a fields

/-- The fields of a list of pairs: a repeated key keeps its first place and its last value. -/
def ofList (pairs : List (κ × α)) : List (κ × α) :=
  pairs.foldl (fun fields f => put f.1 f.2 fields) []

theorem get?_cons (key : κ) (f : κ × α) (fields : List (κ × α)) :
    get? key (f :: fields) = if f.1 = key then some f.2 else get? key fields := by
  by_cases h : f.1 = key <;> simp [get?, h]

theorem get?_put_self (key : κ) (a : α) (fields : List (κ × α)) :
    get? key (put key a fields) = some a := by
  induction fields with
  | nil => simp [put, get?_cons]
  | cons f fields ih =>
    by_cases h : f.1 = key
    · simp [put, h, get?_cons]
    · simp [put, h, get?_cons, ih]

theorem get?_put_of_ne {key other : κ} (h : other ≠ key) (a : α) (fields : List (κ × α)) :
    get? other (put key a fields) = get? other fields := by
  induction fields with
  | nil => simp [put, get?, Ne.symm h]
  | cons f fields ih =>
    by_cases hk : f.1 = key
    · simp [put, hk, get?_cons, Ne.symm h]
    · simp [put, hk, get?_cons, ih]

theorem put_of_not_mem {key : κ} {fields : List (κ × α)} (a : α)
    (h : key ∉ fields.map Prod.fst) : put key a fields = fields ++ [(key, a)] := by
  induction fields with
  | nil => rfl
  | cons f fields ih =>
    simp only [List.map_cons, List.mem_cons, not_or] at h
    rw [put, if_neg (Ne.symm h.1), ih h.2]
    rfl

theorem get?_of_mem {fields : List (κ × α)} (hnodup : (fields.map Prod.fst).Nodup) {f : κ × α}
    (hf : f ∈ fields) : get? f.1 fields = some f.2 := by
  induction fields with
  | nil => cases hf
  | cons g fields ih =>
    rw [List.map_cons, List.nodup_cons] at hnodup
    rw [get?_cons]
    rcases List.mem_cons.mp hf with rfl | hf
    · rw [if_pos rfl]
    · have hne : g.1 ≠ f.1 := by
        intro heq
        exact hnodup.1 (heq ▸ List.mem_map_of_mem hf)
      rw [if_neg hne, ih hnodup.2 hf]

end StackForest.Fields
