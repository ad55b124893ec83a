import StackForest.Expr.Walk
import Mathlib.Data.List.Basic

/-!
# Walks and addresses

The address of a node is the way to it from its root. The walk with its stack finds the nodes in
pre-order, each with the number of the node at its parent's address (`walk_eq`).
-/

namespace StackForest.Expr

/-- The place of a root in the forest, then of a child among its siblings, and so on. -/
abbrev Address := List Nat

mutual
/-- The nodes of a tree that stands at an address, in pre-order. -/
def preorder (a : Address) : Expr → List (Address × Expr)
  | call n c p l es => (a, call n c p l es) :: preorderAll a 0 es
  | block c p l es => (a, block c p l es) :: preorderAll a 0 es
  | e => [(a, e)]
def preorderAll (a : Address) (i : Nat) : List Expr → List (Address × Expr)
  | [] => []
  | e :: es => preorder (a ++ [i]) e ++ preorderAll a (i + 1) es
end

/-- The nodes of a forest with their addresses, in pre-order. -/
def nodes (forest : List Expr) : List (Address × Expr) := preorderAll [] 0 forest

/-- The number of the node at an address. -/
def number (forest : List Expr) (a : Address) : Nat := ((nodes forest).map Prod.fst).idxOf a

def parentNumber? (forest : List Expr) (a : Address) : Option Nat :=
  if a.length = 1 then none else some (number forest a.dropLast)

def siblings (a : Address) (i : Nat) (es : List Expr) : List (Address × Expr) :=
  (es.zipIdx i).map fun x => (a ++ [x.2], x.1)

theorem preorder_eq (a : Address) (e : Expr) :
    preorder a e = (a, e) :: preorderAll a 0 e.children := by
  cases e <;> rfl

theorem preorderAll_cons (a : Address) (i : Nat) (e : Expr) (es : List Expr) :
    preorderAll a i (e :: es) =
      (a ++ [i], e) :: (preorderAll (a ++ [i]) 0 e.children ++ preorderAll a (i + 1) es) := by
  rw [preorderAll, preorder_eq, List.cons_append]

theorem siblings_cons (a : Address) (i : Nat) (e : Expr) (es : List Expr) :
    siblings a i (e :: es) = (a ++ [i], e) :: siblings a (i + 1) es := rfl

@[elab_as_elim]
theorem siblings_induction {P : List Expr → Prop} (nil : P [])
    (cons : ∀ e es, P e.children → P es → P (e :: es)) (es : List Expr) : P es := by
  cases es with
  | nil => exact nil
  | cons e es =>
    exact cons e es (siblings_induction nil cons e.children) (siblings_induction nil cons es)
termination_by sizeAll es
decreasing_by
  all_goals
    simp only [sizeAll, size_eq]
    omega

theorem length_preorderAll (a : Address) (i : Nat) (es : List Expr) :
    (preorderAll a i es).length = sizeAll es := by
  induction es using siblings_induction generalizing a i with
  | nil => rfl
  | cons e es ihc ih =>
    rw [preorderAll_cons, List.length_cons, List.length_append, ihc, ih, sizeAll, size_eq]
    omega

theorem length_nodes (forest : List Expr) : (nodes forest).length = sizeAll forest :=
  length_preorderAll [] 0 forest

/-! ## Addresses below an address -/

theorem eq_of_isPrefix {a b : Address} {i j : Nat} (hi : a ++ [i] <+: b) (hj : a ++ [j] <+: b) :
    i = j := by
  have h := (List.prefix_of_prefix_length_le hi hj (by simp)).eq_of_length (by simp)
  simpa using h

theorem exists_isPrefix_of_mem {a : Address} {i : Nat} {es : List Expr} {s : Address × Expr}
    (h : s ∈ preorderAll a i es) : ∃ j, i ≤ j ∧ a ++ [j] <+: s.1 := by
  induction es using siblings_induction generalizing a i with
  | nil => cases h
  | cons e es ihc ih =>
    rw [preorderAll_cons, List.mem_cons, List.mem_append] at h
    rcases h with rfl | h | h
    · exact ⟨i, Nat.le_refl i, List.prefix_rfl⟩
    · obtain ⟨j, -, hj⟩ := ihc h
      exact ⟨i, Nat.le_refl i, (List.prefix_append (a ++ [i]) [j]).trans hj⟩
    · obtain ⟨j, hj, hprefix⟩ := ih h
      exact ⟨j, by omega, hprefix⟩

theorem length_of_mem {a : Address} {i : Nat} {es : List Expr} {s : Address × Expr}
    (h : s ∈ preorderAll a i es) : a.length < s.1.length := by
  obtain ⟨j, -, hj⟩ := exists_isPrefix_of_mem h
  have hlength := hj.length_le
  rw [List.length_append] at hlength
  exact hlength

theorem sibling_or_child {a : Address} {i : Nat} {es : List Expr} {s : Address × Expr}
    (h : s ∈ preorderAll a i es) : (∃ j, i ≤ j ∧ s.1 = a ++ [j] ∧ es[j - i]? = some s.2) ∨
      ∃ t ∈ preorderAll a i es, ∃ j, s.1 = t.1 ++ [j] ∧ t.2.children[j]? = some s.2 := by
  induction es using siblings_induction generalizing a i with
  | nil => cases h
  | cons e es ihc ih =>
    rw [preorderAll_cons] at h ⊢
    rcases List.mem_cons.mp h with rfl | h
    · exact .inl ⟨i, Nat.le_refl i, rfl, by simp⟩
    rcases List.mem_append.mp h with h | h
    · refine .inr ?_
      rcases ihc h with ⟨j, -, hs, he⟩ | ⟨t, ht, j, hs, he⟩
      · exact ⟨_, .head _, j, hs, he⟩
      · exact ⟨t, .tail _ (List.mem_append_left _ ht), j, hs, he⟩
    · rcases ih h with ⟨j, hj, hs, he⟩ | ⟨t, ht, j, hs, he⟩
      · refine .inl ⟨j, by omega, hs, ?_⟩
        rw [show j - i = (j - (i + 1)) + 1 by omega]
        exact he
      · exact .inr ⟨t, .tail _ (List.mem_append_right _ ht), j, hs, he⟩

theorem pairwise_preorderAll (a : Address) (i : Nat) (es : List Expr) :
    (preorderAll a i es).Pairwise fun s t => ¬ t.1 <+: s.1 := by
  induction es using siblings_induction generalizing a i with
  | nil => exact .nil
  | cons e es ihc ih =>
    rw [preorderAll_cons, List.pairwise_cons, List.pairwise_append]
    have hbelow : ∀ t ∈ preorderAll (a ++ [i]) 0 e.children, a ++ [i] <+: t.1 := by
      intro t ht
      obtain ⟨j, -, hj⟩ := exists_isPrefix_of_mem ht
      exact (List.prefix_append _ _).trans hj
    have hbehind : ∀ t ∈ preorderAll a (i + 1) es, ∀ b : Address, a ++ [i] <+: b → ¬ t.1 <+: b := by
      intro t ht b hb hprefix
      obtain ⟨j, hj, hj'⟩ := exists_isPrefix_of_mem ht
      have hij := eq_of_isPrefix hb (hj'.trans hprefix)
      omega
    refine ⟨?_, ihc _ _, ih _ _, ?_⟩
    · intro t ht hprefix
      rcases List.mem_append.mp ht with ht | ht
      · exact absurd hprefix.length_le (Nat.not_le.mpr (length_of_mem ht))
      · exact hbehind t ht _ List.prefix_rfl hprefix
    · intro s hs t ht
      exact hbehind t ht _ (hbelow s hs)

theorem nodup_addresses (forest : List Expr) : ((nodes forest).map Prod.fst).Nodup := by
  rw [List.Nodup, List.pairwise_map]
  refine (pairwise_preorderAll [] 0 forest).imp ?_
  intro s t hprefix heq
  exact hprefix (heq ▸ List.prefix_rfl)

/-! ## Children -/

theorem dropLast_ne_of_isPrefix {a b c : Address} {i j : Nat} (hb : a ++ [i] <+: b)
    (hc : a ++ [j] <+: c) (hij : i ≠ j) : c.dropLast ≠ b := by
  rintro rfl
  exact hij (eq_of_isPrefix (hb.trans (List.dropLast_prefix c)) hc)

theorem filter_eq_nil {b : Address} {ss : List (Address × Expr)} (h : ∀ s ∈ ss, s.1.dropLast ≠ b) :
    ss.filter (fun s => s.1.dropLast == b) = [] :=
  List.filter_eq_nil_iff.mpr fun s hs heq => h s hs (eq_of_beq heq)

theorem filter_siblings (a : Address) (i : Nat) (es : List Expr) :
    (preorderAll a i es).filter (fun s => s.1.dropLast == a) = siblings a i es := by
  induction es using siblings_induction generalizing a i with
  | nil => rfl
  | cons e es ihc ih =>
    have hbelow : ∀ s ∈ preorderAll (a ++ [i]) 0 e.children, s.1.dropLast ≠ a := by
      rintro s hs rfl
      have hlength := length_of_mem hs
      simp only [List.length_append, List.length_dropLast, List.length_singleton] at hlength
      omega
    rw [preorderAll_cons, List.filter_cons_of_pos (by simp), List.filter_append,
      filter_eq_nil hbelow, List.nil_append, ih, siblings_cons]

theorem filter_children {a b : Address} {i : Nat} {es : List Expr} {f : Expr}
    (h : (b, f) ∈ preorderAll a i es) :
    (preorderAll a i es).filter (fun s => s.1.dropLast == b) = siblings b 0 f.children := by
  induction es using siblings_induction generalizing a i with
  | nil => cases h
  | cons e es ihc ih =>
    have hhead : a ≠ b := by
      rintro rfl
      exact Nat.lt_irrefl _ (length_of_mem h)
    -- A child is found among the nodes that are in the same sibling as its parent.
    have hbehind (hb : a ++ [i] <+: b) :
        (preorderAll a (i + 1) es).filter (fun s => s.1.dropLast == b) = [] := by
      refine filter_eq_nil fun s hs => ?_
      obtain ⟨j, hj, hs⟩ := exists_isPrefix_of_mem hs
      exact dropLast_ne_of_isPrefix hb hs (by omega)
    rw [preorderAll_cons, List.filter_cons_of_neg (by simp [hhead]), List.filter_append]
    rw [preorderAll_cons] at h
    rcases List.mem_cons.mp h with h | h
    · cases h
      rw [hbehind List.prefix_rfl, List.append_nil, filter_siblings]
    rcases List.mem_append.mp h with h | h
    · obtain ⟨j, -, hj⟩ := exists_isPrefix_of_mem h
      rw [hbehind ((List.prefix_append _ _).trans hj), List.append_nil, ihc h]
    · obtain ⟨j, hj, hb⟩ := exists_isPrefix_of_mem h
      have hbelow : ∀ s ∈ preorderAll (a ++ [i]) 0 e.children, s.1.dropLast ≠ b := by
        intro s hs
        obtain ⟨k, -, hs⟩ := exists_isPrefix_of_mem hs
        exact dropLast_ne_of_isPrefix hb ((List.prefix_append _ _).trans hs) (by omega)
      rw [filter_eq_nil hbelow, List.nil_append, ih h]

section
variable {forest : List Expr}

theorem filter_nodes {s : Address × Expr} (hs : s ∈ nodes forest) :
    (nodes forest).filter (fun t => t.1.dropLast == s.1) = siblings s.1 0 s.2.children :=
  filter_children hs

theorem mem_nodes_of_child {s : Address × Expr} {c : Expr × Nat} (hs : s ∈ nodes forest)
    (hc : c ∈ s.2.children.zipIdx) : (s.1 ++ [c.2], c.1) ∈ nodes forest := by
  have hsibling : (s.1 ++ [c.2], c.1) ∈ siblings s.1 0 s.2.children := List.mem_map_of_mem hc
  rw [← filter_nodes hs] at hsibling
  exact (List.mem_filter.mp hsibling).1

theorem mem_nodes_of_root {x : Expr × Nat} (hx : x ∈ forest.zipIdx) :
    ([x.2], x.1) ∈ nodes forest := by
  have hsibling : ([x.2], x.1) ∈ siblings [] 0 forest := List.mem_map_of_mem hx
  rw [← filter_siblings] at hsibling
  exact (List.mem_filter.mp hsibling).1

/-! ## Numbers -/

theorem number_of_nodes {before after : List (Address × Expr)} {s : Address × Expr}
    (h : nodes forest = before ++ s :: after) : number forest s.1 = before.length := by
  have hnodup := nodup_addresses forest
  rw [h, List.map_append, List.map_cons, List.nodup_append] at hnodup
  have hbefore : s.1 ∉ before.map Prod.fst :=
    fun hmem => hnodup.2.2 s.1 hmem s.1 (.head _) rfl
  rw [number, h, List.map_append, List.map_cons, List.idxOf_append_of_notMem hbefore,
    List.idxOf_cons_self, List.length_map, Nat.add_zero]

theorem number_of_getElem? {n : Nat} {s : Address × Expr} (h : (nodes forest)[n]? = some s) :
    number forest s.1 = n := by
  obtain ⟨hn, rfl⟩ := List.getElem?_eq_some_iff.mp h
  have hsplit : nodes forest =
      (nodes forest).take n ++ (nodes forest)[n] :: (nodes forest).drop (n + 1) := by
    rw [← List.drop_eq_getElem_cons hn, List.take_append_drop]
  rw [number_of_nodes hsplit, List.length_take, Nat.min_eq_left (Nat.le_of_lt hn)]

theorem getElem?_number {s : Address × Expr} (h : s ∈ nodes forest) :
    (nodes forest)[number forest s.1]? = some s := by
  obtain ⟨n, hn⟩ := List.mem_iff_getElem?.mp h
  rw [number_of_getElem? hn, hn]

theorem number_injective {s t : Address × Expr} (hs : s ∈ nodes forest) (ht : t ∈ nodes forest)
    (h : number forest s.1 = number forest t.1) : s = t := by
  have hget := getElem?_number hs
  rw [h, getElem?_number ht] at hget
  exact (Option.some.inj hget).symm

theorem ne_nil_of_mem {s : Address × Expr} (h : s ∈ nodes forest) : s.1 ≠ [] :=
  List.ne_nil_of_length_pos (length_of_mem h)

theorem filter_address {s : Address × Expr} (h : s ∈ nodes forest) :
    (nodes forest).filter (fun t => t.1 == s.1) = [s] := by
  obtain ⟨before, after, hsplit⟩ := List.append_of_mem h
  have hnodup := nodup_addresses forest
  rw [hsplit, List.map_append, List.map_cons, List.nodup_append, List.nodup_cons] at hnodup
  obtain ⟨-, ⟨hafter, -⟩, hbefore⟩ := hnodup
  have hb : before.filter (fun t => t.1 == s.1) = [] := by
    refine List.filter_eq_nil_iff.mpr fun t ht heq => ?_
    exact hbefore t.1 (List.mem_map_of_mem ht) s.1 (.head _) (eq_of_beq heq)
  have ha : after.filter (fun t => t.1 == s.1) = [] := by
    refine List.filter_eq_nil_iff.mpr fun t ht heq => hafter ?_
    exact eq_of_beq heq ▸ List.mem_map_of_mem ht
  rw [hsplit, List.filter_append, hb, List.filter_cons_of_pos (by simp), ha, List.nil_append]

theorem zipIdx_nodes (forest : List Expr) :
    (nodes forest).zipIdx = (nodes forest).map fun s => (s, number forest s.1) := by
  refine List.ext_getElem? fun n => ?_
  rw [List.getElem?_zipIdx, List.getElem?_map, Nat.zero_add]
  cases h : (nodes forest)[n]? with
  | none => rfl
  | some s => rw [Option.map_some, Option.map_some, number_of_getElem? h]

theorem numbers_nodes (forest : List Expr) :
    (nodes forest).map (fun s => number forest s.1) = List.range' 0 (nodes forest).length := by
  rw [← List.zipIdx_map_snd, zipIdx_nodes, List.map_map]
  rfl

/-! ## Parents -/

theorem exists_parent {s : Address × Expr} (hs : s ∈ nodes forest) (hroot : s.1.length ≠ 1) :
    ∃ t ∈ nodes forest, t.1 = s.1.dropLast ∧ number forest t.1 < number forest s.1 ∧
      ∃ i, s.1 = t.1 ++ [i] ∧ t.2.children[i]? = some s.2 := by
  rcases sibling_or_child hs with ⟨j, -, hj, -⟩ | ⟨t, ht, i, hi, hchild⟩
  · rw [hj] at hroot
    exact absurd rfl hroot
  have hdrop : t.1 = s.1.dropLast := by rw [hi, List.dropLast_concat]
  refine ⟨t, ht, hdrop, ?_, i, hi, hchild⟩
  obtain ⟨hns, hs'⟩ := List.getElem?_eq_some_iff.mp (getElem?_number hs)
  obtain ⟨hnt, ht'⟩ := List.getElem?_eq_some_iff.mp (getElem?_number ht)
  have hpairwise := List.pairwise_iff_getElem.mp (pairwise_preorderAll [] 0 forest)
  refine Nat.lt_of_le_of_ne (Nat.le_of_not_lt fun hlt => ?_) fun heq => ?_
  · refine hpairwise _ _ hns hnt hlt ?_
    change (nodes forest)[number forest t.1].1 <+: (nodes forest)[number forest s.1].1
    rw [hs', ht', hi]
    exact List.prefix_append _ _
  · rw [number_injective ht hs heq] at hi
    have hlength := congrArg List.length hi
    simp at hlength

theorem isNone_parentNumber? {s : Address × Expr} (hs : s ∈ nodes forest) :
    (parentNumber? forest s.1).isNone = (s.1.dropLast == []) := by
  have hlength := length_of_mem hs
  by_cases hroot : s.1.length = 1
  · obtain ⟨i, hi⟩ := List.length_eq_one_iff.mp hroot
    simp [parentNumber?, hi]
  · have hne : s.1.dropLast ≠ [] := by
      rw [ne_eq, ← List.length_eq_zero_iff, List.length_dropLast]
      change 0 < s.1.length at hlength
      omega
    simp [parentNumber?, hroot, hne]

theorem parentNumber?_child (forest : List Expr) {a : Address} (ha : a ≠ []) (j : Nat) :
    parentNumber? forest (a ++ [j]) = some (number forest a) := by
  rw [parentNumber?, if_neg (by simpa using ha), List.dropLast_concat]

/-! ## The walk -/

theorem walkFrom_append {a : Address} {i : Nat} {es : List Expr}
    {before after : List (Address × Expr)}
    (hnodes : nodes forest = before ++ preorderAll a i es ++ after) {parent : Option Nat}
    (hparent : ∀ j, parentNumber? forest (a ++ [j]) = parent) (stack : List (Expr × Option Nat)) :
    walkFrom before.length (es.map (·, parent) ++ stack) =
      (preorderAll a i es).map (fun s => (s.2, parentNumber? forest s.1)) ++
        walkFrom (before.length + sizeAll es) stack := by
  induction es using siblings_induction generalizing a i before after parent stack with
  | nil => rfl
  | cons e es ihc ih =>
    rw [preorderAll_cons] at hnodes
    have hnumber : number forest (a ++ [i]) = before.length := by
      rw [List.append_assoc, List.cons_append] at hnodes
      exact number_of_nodes hnodes
    have hchildren : nodes forest = (before ++ [(a ++ [i], e)]) ++
        preorderAll (a ++ [i]) 0 e.children ++ (preorderAll a (i + 1) es ++ after) := by
      simp [hnodes]
    have hsiblings : nodes forest =
        (before ++ (a ++ [i], e) :: preorderAll (a ++ [i]) 0 e.children) ++
          preorderAll a (i + 1) es ++ after := by
      simp [hnodes]
    have hchild : ∀ j, parentNumber? forest (a ++ [i] ++ [j]) = some before.length := by
      intro j
      rw [parentNumber?_child forest (by simp), hnumber]
    have hc := ihc hchildren hchild (es.map (·, parent) ++ stack)
    have hs := ih hsiblings hparent stack
    have hlength : (before ++ [(a ++ [i], e)]).length = before.length + 1 := by simp
    have hlength' : (before ++ (a ++ [i], e) :: preorderAll (a ++ [i]) 0 e.children).length =
        before.length + 1 + sizeAll e.children := by
      simp only [List.length_append, List.length_cons, length_preorderAll]
      omega
    rw [hlength] at hc
    rw [hlength'] at hs
    have hsize : before.length + sizeAll (e :: es) =
        before.length + 1 + sizeAll e.children + sizeAll es := by
      rw [sizeAll, size_eq]
      omega
    rw [List.map_cons, List.cons_append, walkFrom, hc, hs, hsize, preorderAll_cons, List.map_cons,
      hparent, List.map_append, List.cons_append, List.append_assoc]

/-- The walk with its stack is the pre-order of the recursion: it has each node with the
number of its parent. -/
theorem walk_eq (forest : List Expr) :
    walk forest = (nodes forest).map fun s => (s.2, parentNumber? forest s.1) := by
  have hnodes : nodes forest = [] ++ preorderAll [] 0 forest ++ [] := (List.append_nil _).symm
  have h := walkFrom_append hnodes (fun _ => rfl) []
  rw [List.append_nil] at h
  rw [walk]
  refine h.trans ?_
  rw [walkFrom, List.append_nil, nodes]

end

end StackForest.Expr
