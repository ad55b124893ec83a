import StackForest.Fields

/-!
# Fields put on fields

When fields are put on others one by one, each key stands where it occurred first and has its last
value.
-/

namespace StackForest.Fields

variable {κ α : Type} [DecidableEq κ]

def putAll (base pairs : List (κ × α)) : List (κ × α) :=
  pairs.foldl (fun fields f => put f.1 f.2 fields) base

theorem putAll_cons (base : List (κ × α)) (f : κ × α) (pairs : List (κ × α)) :
    putAll base (f :: pairs) = putAll (put f.1 f.2 base) pairs := rfl

theorem putAll_append (base pairs others : List (κ × α)) :
    putAll base (pairs ++ others) = putAll (putAll base pairs) others := List.foldl_append

/-! ## Keys -/

theorem map_fst_put_of_mem {key : κ} {fields : List (κ × α)} (a : α)
    (h : key ∈ fields.map Prod.fst) : (put key a fields).map Prod.fst = fields.map Prod.fst := by
  induction fields with
  | nil => cases h
  | cons f fields ih =>
    by_cases hf : f.1 = key
    · rw [put, if_pos hf, List.map_cons, List.map_cons, hf]
    · rw [List.map_cons, List.mem_cons] at h
      rw [put, if_neg hf, List.map_cons, List.map_cons, ih (h.resolve_left (Ne.symm hf))]

theorem map_fst_put_of_not_mem {key : κ} {fields : List (κ × α)} (a : α)
    (h : key ∉ fields.map Prod.fst) :
    (put key a fields).map Prod.fst = fields.map Prod.fst ++ [key] := by
  rw [put_of_not_mem a h, List.map_append, List.map_singleton]

theorem nodup_put {fields : List (κ × α)} (h : (fields.map Prod.fst).Nodup) (key : κ) (a : α) :
    ((put key a fields).map Prod.fst).Nodup := by
  by_cases hkey : key ∈ fields.map Prod.fst
  · rwa [map_fst_put_of_mem a hkey]
  · rw [map_fst_put_of_not_mem a hkey, List.nodup_append]
    refine ⟨h, List.pairwise_singleton _ _, fun k hk k' hk' => ?_⟩
    rw [List.mem_singleton.mp hk']
    exact fun heq => hkey (heq ▸ hk)

theorem nodup_putAll {base : List (κ × α)} (h : (base.map Prod.fst).Nodup) (pairs : List (κ × α)) :
    ((putAll base pairs).map Prod.fst).Nodup := by
  induction pairs generalizing base with
  | nil => exact h
  | cons f pairs ih => exact ih (nodup_put h f.1 f.2)

theorem eraseDups_of_nodup {keys : List κ} (h : keys.Nodup) : keys.eraseDups = keys := by
  induction keys with
  | nil => rfl
  | cons key keys ih =>
    rw [List.nodup_cons] at h
    have hfilter : keys.filter (fun k => !k == key) = keys := by
      refine List.filter_eq_self.mpr fun k hk => ?_
      have hne : k ≠ key := by
        rintro rfl
        exact h.1 hk
      simp [hne]
    rw [List.eraseDups_cons, hfilter, ih h.2]

theorem map_fst_putAll {base : List (κ × α)} (h : (base.map Prod.fst).Nodup)
    (pairs : List (κ × α)) :
    (putAll base pairs).map Prod.fst = (base.map Prod.fst ++ pairs.map Prod.fst).eraseDups := by
  induction pairs generalizing base with
  | nil =>
    rw [List.map_nil, List.append_nil, eraseDups_of_nodup h]
    rfl
  | cons f pairs ih =>
    rw [putAll_cons, List.map_cons, ih (nodup_put h f.1 f.2)]
    by_cases hf : f.1 ∈ base.map Prod.fst
    · rw [map_fst_put_of_mem f.2 hf, List.eraseDups_append, List.eraseDups_append]
      simp only [List.removeAll, List.filter_cons, List.elem_eq_mem, hf, decide_true, Bool.not_true,
        Bool.false_eq_true, if_false]
    · rw [map_fst_put_of_not_mem f.2 hf, List.append_assoc, List.singleton_append]

theorem nodup_ofList (pairs : List (κ × α)) : ((ofList pairs).map Prod.fst).Nodup :=
  @nodup_putAll κ α _ [] .nil pairs

theorem map_fst_ofList (pairs : List (κ × α)) :
    (ofList pairs).map Prod.fst = (pairs.map Prod.fst).eraseDups :=
  @map_fst_putAll κ α _ [] .nil pairs

/-! ## Values -/

theorem get?_append (key : κ) (fields others : List (κ × α)) :
    get? key (fields ++ others) = (get? key fields).or (get? key others) := by
  unfold get?
  rw [List.find?_append, Option.map_or]

theorem get?_putAll (key : κ) (base pairs : List (κ × α)) :
    get? key (putAll base pairs) = (get? key pairs.reverse).or (get? key base) := by
  induction pairs generalizing base with
  | nil => rfl
  | cons f pairs ih =>
    have hput : get? key (put f.1 f.2 base) = (get? key [f]).or (get? key base) := by
      rw [get?_cons]
      by_cases hf : f.1 = key
      · rw [if_pos hf, ← hf, get?_put_self]
        rfl
      · rw [if_neg hf, get?_put_of_ne (Ne.symm hf)]
        rfl
    rw [putAll_cons, ih, hput, List.reverse_cons, get?_append, Option.or_assoc]

theorem get?_ofList (key : κ) (pairs : List (κ × α)) :
    get? key (ofList pairs) = get? key pairs.reverse :=
  (get?_putAll key [] pairs).trans Option.or_none

theorem get?_eq_none_iff {key : κ} {fields : List (κ × α)} :
    get? key fields = none ↔ key ∉ fields.map Prod.fst := by
  rw [get?, Option.map_eq_none_iff, List.find?_eq_none]
  simp only [decide_eq_true_eq, List.mem_map, not_exists, not_and]

theorem mem_of_get? {key : κ} {fields : List (κ × α)} {a : α} (h : get? key fields = some a) :
    (key, a) ∈ fields := by
  obtain ⟨f, hf, rfl⟩ := Option.map_eq_some_iff.mp h
  have hkey : f.1 = key := by simpa using List.find?_some hf
  rw [← hkey]
  exact List.mem_of_find?_eq_some hf

theorem get?_reverse {fields : List (κ × α)} (h : (fields.map Prod.fst).Nodup) (key : κ) :
    get? key fields.reverse = get? key fields := by
  cases hget : get? key fields with
  | none =>
    rw [get?_eq_none_iff] at hget ⊢
    rwa [List.map_reverse, List.mem_reverse]
  | some a =>
    have hmem := List.mem_reverse.mpr (mem_of_get? hget)
    have hnodup : (fields.reverse.map Prod.fst).Nodup := by
      rwa [List.map_reverse, (List.reverse_perm _).nodup_iff]
    exact get?_of_mem hnodup hmem

end StackForest.Fields
