import StackForest.Analysis
import StackForest.Proofs.Counts
import StackForest.Proofs.State
import StackForest.Proofs.Sum

/-!
# The JSON text of a forest

The text of an analysis is read as the dictionaries of its roots, which no two forests share
(`text_determines_forest`). A forest that is too deep has no text.
-/

namespace StackForest

namespace Expr

/-! ## Dictionaries tell trees apart -/

theorem toValues_eq_map (es : List Expr) : toValues es = es.map toValue := by
  induction es with
  | nil => rfl
  | cons e es ih => rw [toValues, ih, List.map_cons]

theorem toValues_injective_of {es : List Expr}
    (h : ∀ e ∈ es, ∀ f, toValue e = toValue f → e = f) {fs : List Expr}
    (heq : toValues es = toValues fs) : es = fs := by
  induction es generalizing fs with
  | nil =>
    cases fs with
    | nil => rfl
    | cons f fs => cases heq
  | cons e es ih =>
    rw [List.forall_mem_cons] at h
    cases fs with
    | nil => cases heq
    | cons f fs =>
      injection heq with hhead htail
      rw [h.1 f hhead, ih h.2 htail]

def childFields : Expr → List (String × Value)
  | call _ _ _ _ cs => [("children", .list (toValues cs)),
      ("children_consumes", .int (totalConsumes cs)),
      ("children_produces", .int (totalProduces cs))]
  | block _ _ _ cs => [("children", .list (toValues cs))]
  | _ => []

def tagValue (e : Expr) : Value :=
  match e.typeTag? with
  | some t => .text t
  | none => .null

def fields (e : Expr) : List (String × Value) :=
  ("type", e.tagValue) :: ("value", e.value) :: ("consumes", .int e.consumes) ::
    ("produces", .int e.produces) :: (Record.labelFields e.label ++ childFields e)

theorem toValue_eq (e : Expr) : toValue e = .dict e.fields := by
  have hcommon : commonFields e = ("type", e.tagValue) :: ("value", e.value) ::
      ("consumes", .int e.consumes) :: ("produces", .int e.produces) ::
        Record.labelFields e.label := by
    unfold commonFields
    cases e.label <;> rfl
  cases e <;> simp [toValue, hcommon, childFields, fields]

theorem labelFields_injective {l m : Value}
    (h : Record.labelFields l = Record.labelFields m) : l = m := by
  cases l <;> cases m <;> simp_all [Record.labelFields]

inductive SameKind : Expr → Expr → Prop
  | literal {k v w l m} : SameKind (literal k v l) (literal k w m)
  | call {n o c d p q l m es fs} : SameKind (call n c p l es) (call o d q m fs)
  | block {c d p q l m es fs} : SameKind (block c p l es) (block d q m fs)
  | bare {v w c d p q l m} : SameKind (bare v c p l) (bare w d q m)

theorem sameKind_of_tagValue {e f : Expr} (h : e.tagValue = f.tagValue) : SameKind e f := by
  have htag : e.typeTag? = f.typeTag? := by
    unfold tagValue at h
    cases he : e.typeTag? <;> cases hf : f.typeTag? <;> simp_all
  cases e with
  | literal k _ _ =>
    cases f with
    | literal k' _ _ =>
      cases k <;> cases k'
      all_goals first | exact .literal | simp [typeTag?] at htag
    | _ => cases k <;> simp [typeTag?] at htag
  | call _ _ _ _ _ =>
    cases f with
    | call _ _ _ _ _ => exact .call
    | literal k _ _ => cases k <;> simp [typeTag?] at htag
    | _ => simp [typeTag?] at htag
  | block _ _ _ _ =>
    cases f with
    | block _ _ _ _ => exact .block
    | literal k _ _ => cases k <;> simp [typeTag?] at htag
    | _ => simp [typeTag?] at htag
  | bare _ _ _ _ =>
    cases f with
    | bare _ _ _ _ => exact .bare
    | literal k _ _ => cases k <;> simp [typeTag?] at htag
    | _ => simp [typeTag?] at htag

theorem length_childFields {e f : Expr} (h : SameKind e f) :
    (childFields e).length = (childFields f).length := by
  cases h <;> rfl

theorem toValue_injective (e f : Expr) (h : toValue e = toValue f) : e = f := by
  induction e using induction_on generalizing f with
  | h e ih =>
    rw [toValue_eq, toValue_eq] at h
    simp only [fields, Value.dict.injEq, List.cons.injEq, Prod.mk.injEq, true_and, Value.int,
      Value.number.injEq, Number.int.injEq] at h
    obtain ⟨htag, hvalue, hconsumes, hproduces, hrest⟩ := h
    -- trees of one kind have the same fields behind the label, so what is left is the label
    have hkind := sameKind_of_tagValue htag
    obtain ⟨hfields, hchild⟩ := List.append_inj' hrest (length_childFields hkind)
    have hlabel := labelFields_injective hfields
    cases hkind with
    | literal =>
      cases hvalue
      cases hlabel
      rfl
    | call =>
      simp only [childFields, List.cons.injEq, Prod.mk.injEq, Value.list.injEq, true_and] at hchild
      cases hvalue
      cases hlabel
      cases Int.ofNat.inj hconsumes
      cases Int.ofNat.inj hproduces
      exact congrArg (call _ _ _ _) (toValues_injective_of ih hchild.1)
    | block =>
      simp only [childFields, List.cons.injEq, Prod.mk.injEq, Value.list.injEq, true_and,
        and_true] at hchild
      cases hconsumes
      cases hproduces
      cases hlabel
      exact congrArg (block _ _ _) (toValues_injective_of ih hchild)
    | bare =>
      cases hvalue
      cases hconsumes
      cases hproduces
      cases hlabel
      rfl

/-! ## Dictionaries that can be stored -/

/-- Whether the counts of a node can be stored: its own and the totals of its children. -/
def hasStorableCounts (e : Expr) : Bool :=
  [e.consumes, e.produces, totalConsumes e.children, totalProduces e.children].all fun i =>
    (Number.int i).isStorable

theorem keys_childFields (e : Expr) : ((childFields e).map Prod.fst).Sublist
    ["children", "children_consumes", "children_produces"] := by
  cases e with
  | call _ _ _ _ _ => exact List.Sublist.refl _
  | block _ _ _ _ => exact .cons_cons _ (List.nil_sublist _)
  | literal _ _ _ | bare _ _ _ _ => exact List.nil_sublist _

theorem nodup_fields (e : Expr) : (e.fields.map Prod.fst).Nodup := by
  have hkeys : ["type", "value", "consumes", "produces", Record.labelField, "children",
    "children_consumes", "children_produces"].Nodup := by decide
  refine hkeys.sublist ?_
  rw [fields, List.map_cons, List.map_cons, List.map_cons, List.map_cons, List.map_append]
  exact .cons_cons _ (.cons_cons _ (.cons_cons _ (.cons_cons _
    ((Record.keys_labelFields _).append (keys_childFields e)))))

theorem isStorable_toValue {e : Expr} (hvalue : e.value.IsStorable) (hlabel : e.label.IsStorable)
    (hcounts : e.hasStorableCounts = true) (hchildren : ∀ c ∈ e.children, (toValue c).IsStorable) :
    (toValue e).IsStorable := by
  simp only [hasStorableCounts, List.all_cons, List.all_nil, Bool.and_eq_true, Bool.and_true]
    at hcounts
  obtain ⟨hconsumes, hproduces, hinner, houter⟩ := hcounts
  have htag : e.tagValue.IsStorable := by
    unfold tagValue
    split
    · exact .text _
    · exact .null
  have hlabels : ∀ f ∈ Record.labelFields e.label, f.2.IsStorable := by
    rcases Record.labelFields_cases e.label with h | h
    · simp [h]
    · simp [h, hlabel]
  have hitems : (Value.list (toValues e.children)).IsStorable := by
    rw [toValues_eq_map]
    exact .list (List.forall_mem_map.mpr hchildren)
  have hchild : ∀ f ∈ childFields e, f.2.IsStorable := by
    cases e with
    | call _ _ _ _ _ =>
      simp only [childFields, List.forall_mem_cons]
      exact ⟨hitems, .number hinner, .number houter, by simp⟩
    | block _ _ _ _ => exact List.forall_mem_singleton.mpr hitems
    | literal _ _ _ | bare _ _ _ _ => simp [childFields]
  rw [toValue_eq]
  refine .dict (nodup_fields e) ?_
  simp only [fields, List.forall_mem_cons, List.forall_mem_append]
  exact ⟨htag, hvalue, .number hconsumes, .number hproduces, hlabels, hchild⟩

theorem isStorable_of_postorder (e : Expr) (h : ∀ x ∈ postorder e,
    x.value.IsStorable ∧ x.label.IsStorable ∧ x.hasStorableCounts = true) :
    (toValue e).IsStorable := by
  induction e using induction_on with
  | h e ih =>
    rw [postorder_eq, List.forall_mem_append, List.forall_mem_singleton] at h
    obtain ⟨hchildren, hvalue, hlabel, hcounts⟩ := h
    refine isStorable_toValue hvalue hlabel hcounts fun c hc => ih c hc fun x hx => ?_
    exact hchildren x (mem_postorderAll.mpr ⟨c, hc, hx⟩)

theorem isStorable_of_origin? {e : Expr} {x : Entry} (h : origin? e = some x)
    (hx : ∀ i, x = .instruction i → i.IsStorable) : e.value.IsStorable ∧ e.label.IsStorable := by
  unfold origin? at h
  split at h
  · cases h
    cases hx _ rfl with
    | pushNumber hn hl => exact ⟨.number hn, hl⟩
  · cases h
    cases hx _ rfl with
    | pushText _ hl => exact ⟨.text _, hl⟩
  · cases h
  · cases h
    cases hx _ rfl with
    | invoke _ hl => exact ⟨.text _, hl⟩
  · cases h
    cases hx _ rfl with
    | invoke _ hl => exact ⟨.text _, hl⟩
  · cases h

theorem isStorable_of_le {i : Int} {n : Nat} (h0 : 0 ≤ i) (hi : i ≤ n)
    (hn : n < 10 ^ Number.digitLimit) : (Number.int i).isStorable = true := by
  have hlimit : 0 < Number.digitLimit := by decide
  refine decide_eq_true ((Nat.length_toDigits_le_iff (by decide) hlimit).mpr ?_)
  omega

theorem hasStorableCounts_of_arity {table : Table} {arity : Nat} (h1 : 1 ≤ arity)
    (ht : table.HasArity arity) {es : List Expr} (hes : wellFormedAll table es = true)
    (hsize : arity * sizeAll es < 10 ^ Number.digitLimit) :
    ∀ e ∈ postorderAll es, e.hasStorableCounts = true := by
  intro e he
  obtain ⟨f, hf, hef⟩ := mem_postorderAll.mp he
  have hwf := wellFormed_of_node f (wellFormedAll_iff.mp hes f hf) hef
  have hle : (arity * size e : Int) ≤ (arity * sizeAll es : Nat) := by
    exact_mod_cast Nat.mul_le_mul_left arity ((size_le_of_mem f hef).trans (size_le_sizeAll hf))
  have hinner : (arity * sizeAll e.children : Int) ≤ arity * size e := by
    exact_mod_cast Nat.mul_le_mul_left arity (by rw [size_eq]; omega)
  obtain ⟨⟨hc0, hc⟩, hp0, hp⟩ := counts_le h1 ht e hwf
  obtain ⟨⟨htc0, htc⟩, htp0, htp⟩ := totals_le h1 ht e.children (wellFormedAll_children hwf)
  simp only [hasStorableCounts, List.all_cons, List.all_nil, Bool.and_eq_true, Bool.and_true]
  exact ⟨isStorable_of_le hc0 (hc.trans hle) hsize, isStorable_of_le hp0 (hp.trans hle) hsize,
    isStorable_of_le htc0 (htc.trans (hinner.trans hle)) hsize,
    isStorable_of_le htp0 (htp.trans (hinner.trans hle)) hsize⟩

end Expr

/-! ## Analyses -/

namespace Analysis

open StackForest.Expr ShiftReduce

/-- The analyses of programs that can be stored, with counts that can be stored. -/
structure IsStorable (a : Analysis) : Prop where
  instructions : ∀ i, .instruction i ∈ a.program → i.IsStorable
  counts : ∀ e ∈ postorderAll a.forest, e.hasStorableCounts = true

theorem isStorable_toValues {table : Table} {p : Program} {a : Analysis}
    (ha : ofProgram table p = .ok a) (h : a.IsStorable) :
    (Value.list (toValues a.forest)).IsStorable := by
  obtain ⟨forest, hforest, rfl⟩ := map_eq_ok_iff.mp ha
  obtain ⟨s, hs, rfl⟩ := exists_run_of_reconstruct hforest
  have horigin := postorder_of_run hs
  rw [toValues_eq_map]
  refine .list (List.forall_mem_map.mpr fun e he => isStorable_of_postorder e fun x hx => ?_)
  have hmem : x ∈ postorderAll (trees s) := mem_postorderAll.mpr ⟨e, he, hx⟩
  have hx : origin? x ∈ (p.filter (!·.isOpen)).map some := by
    rw [← horigin]
    exact List.mem_map_of_mem hmem
  obtain ⟨y, hy, hxy⟩ := List.mem_map.mp hx
  obtain ⟨hvalue, hlabel⟩ := isStorable_of_origin? hxy.symm fun i hi =>
    h.instructions i (hi ▸ (List.mem_filter.mp hy).1)
  exact ⟨hvalue, hlabel, h.counts x hmem⟩

/-- Counts can be stored unless the program is about as long as a number of too many digits. -/
theorem isStorable_of_arity {table : Table} {arity : Nat} (h1 : 1 ≤ arity)
    (ht : table.HasArity arity) {p : Program} {a : Analysis} (ha : ofProgram table p = .ok a)
    (hp : ∀ i, .instruction i ∈ p → i.IsStorable)
    (hsize : arity * p.length < 10 ^ Number.digitLimit) : a.IsStorable := by
  obtain ⟨forest, hforest, rfl⟩ := map_eq_ok_iff.mp ha
  obtain ⟨s, hs, rfl⟩ := exists_run_of_reconstruct hforest
  have hlength : sizeAll (trees s) ≤ p.length := by
    have h := congrArg List.length (postorder_of_run hs)
    rw [List.length_map, List.length_map, length_postorderAll] at h
    rw [h]
    exact List.length_filter_le _ p
  refine ⟨hp, hasStorableCounts_of_arity h1 ht (wellFormedAll_of_run hs) ?_⟩
  exact (Nat.mul_le_mul_left arity hlength).trans_lt hsize

theorem json?_eq_ok_iff {room : Room} {a : Analysis} {l : Json.Layout} {text : List Char} :
    a.json? room l = .ok text ↔ (Room.fits room.calls (callsAll a.forest) = true ∧
      Room.fits room.writing (Value.list (toValues a.forest)).nesting = true) ∧
        text = a.json l := by
  unfold json? toValues? Json.render? json
  constructor
  · intro h
    obtain ⟨vs, hvs, h⟩ := exists_of_bind_eq_ok h
    split at hvs
    next hcalls =>
      cases hvs
      split at h
      next hwriting =>
        cases h
        exact ⟨⟨hcalls, hwriting⟩, rfl⟩
      · cases h
    · cases hvs
  · rintro ⟨⟨hcalls, hwriting⟩, rfl⟩
    rw [if_pos hcalls]
    exact if_pos hwriting

theorem json?_of_calls {room : Room} {a : Analysis} (l : Json.Layout)
    (h : Room.fits room.calls (callsAll a.forest) = false) : a.json? room l = .error .calls := by
  rw [json?, toValues?, h]
  rfl

end Analysis
end StackForest
