import StackForest.Proofs.Analysis
import Mathlib.Data.List.Forall2

/-!
# Equal trees, equal dictionaries

Trees are compared by their dictionaries, key by key. This comes to the same as a comparison part by
part (`equal_iff_toValue`), and goes deeper than the comparisons of labels and of children
(`overlap_label_lt`, `overlap_children_le`).
-/

namespace StackForest

/-! ## Equality of values -/

namespace Value

theorem equal_text (s t : String) : equal (.text s) (.text t) = (s == t) := by
  rw [equal]

theorem equal_int (i j : Int) : equal (.int i) (.int j) = (i == j) := by
  simp [int, equal, asNumber?, Number.equal]

theorem eq_null_of_isNull {v : Value} (h : v.isNull = true) : v = .null := by
  cases v <;> simp_all [isNull]

theorem isNull_of_equal {v w : Value} (h : v.equal w = true) : v.isNull = w.isNull := by
  cases v <;> cases w <;> simp_all [equal, isNull, asNumber?]

theorem equalItems_iff {vs ws : List Value} :
    equalItems vs ws = true ↔ List.Forall₂ (fun v w => v.equal w = true) vs ws := by
  induction vs generalizing ws with
  | nil => cases ws <;> simp [equalItems]
  | cons v vs ih => cases ws <;> simp [equalItems, ih]

theorem exists_of_equalFields {fs gs : List (String × Value)} (h : equalFields fs gs = true)
    {f : String × Value} (hf : f ∈ fs) :
    ∃ w, Fields.get? f.1 gs = some w ∧ f.2.equal w = true := by
  induction fs with
  | nil => cases hf
  | cons g fs ih =>
    rw [equalFields, Bool.and_eq_true] at h
    rcases List.mem_cons.mp hf with rfl | hf
    · cases hw : Fields.get? f.1 gs with
      | none => simp [hw] at h
      | some w => exact ⟨w, rfl, by simpa [hw] using h.1⟩
    · exact ih h.2 hf

theorem equalFields_iff {fs gs hs : List (String × Value)}
    (hkeys : fs.map Prod.fst = gs.map Prod.fst) (hget : ∀ g ∈ gs, Fields.get? g.1 hs = some g.2) :
    equalFields fs hs = true ↔ List.Forall₂ (fun x y => x.2.equal y.2 = true) fs gs := by
  induction fs generalizing gs with
  | nil =>
    rw [List.map_nil, eq_comm, List.map_eq_nil_iff] at hkeys
    rw [hkeys]
    simp [equalFields]
  | cons f fs ih =>
    obtain ⟨g, gs, rfl, hkey, hkeys⟩ := List.map_eq_cons_iff.mp hkeys.symm
    rw [List.forall_mem_cons] at hget
    rw [equalFields, ← hkey, hget.1, Bool.and_eq_true, ih hkeys.symm hget.2, List.forall₂_cons]

end Value

theorem Value.equal_dict_iff {fs gs : List (String × Value)}
    (hkeys : fs.map Prod.fst = gs.map Prod.fst) (hnodup : (gs.map Prod.fst).Nodup) :
    equal (.dict fs) (.dict gs) = true ↔ List.Forall₂ (fun x y => x.2.equal y.2 = true) fs gs := by
  have hlength : fs.length = gs.length := by
    simpa using congrArg List.length hkeys
  rw [equal, hlength, beq_self_eq_true, Bool.true_and]
  exact equalFields_iff hkeys fun g hg => Fields.get?_of_mem hnodup hg

theorem forall₂_congr_of_mem {α β : Type*} {R S : α → β → Prop} {xs : List α} {ys : List β}
    (h : ∀ x ∈ xs, ∀ y, R x y ↔ S x y) : List.Forall₂ R xs ys ↔ List.Forall₂ S xs ys := by
  induction xs generalizing ys with
  | nil => simp
  | cons x xs ih =>
    rw [List.forall_mem_cons] at h
    cases ys with
    | nil => simp
    | cons y ys => rw [List.forall₂_cons, List.forall₂_cons, h.1, ih h.2]

theorem forall₂_mp {α β : Type*} {R S : α → β → Prop} {xs : List α} {ys : List β}
    (h : List.Forall₂ (fun x y => R x y → S x y) xs ys) (hR : List.Forall₂ R xs ys) :
    List.Forall₂ S xs ys := by
  induction h with
  | nil => exact .nil
  | cons hxy _ ih =>
    rw [List.forall₂_cons] at hR
    exact .cons (hxy hR.1) (ih hR.2)

namespace Expr

/-! ## Equality of trees -/

mutual

/-- Equality of trees: the same shape and kinds, with equal values, labels and effects. -/
def equal : Expr → Expr → Bool
  | literal j v l, literal k w m => j == k && v.equal w && l.equal m
  | call n c p l es, call o d q m fs =>
    n == o && c == d && p == q && l.equal m && equalAll es fs
  | block c p l es, block d q m fs => c == d && p == q && l.equal m && equalAll es fs
  | bare v c p l, bare w d q m => v.equal w && c == d && p == q && l.equal m
  | _, _ => false

def equalAll : List Expr → List Expr → Bool
  | [], [] => true
  | e :: es, f :: fs => equal e f && equalAll es fs
  | _, _ => false

end

theorem equalAll_iff {es fs : List Expr} :
    equalAll es fs = true ↔ List.Forall₂ (fun e f => e.equal f = true) es fs := by
  induction es generalizing fs with
  | nil => cases fs <;> simp [equalAll]
  | cons e es ih => cases fs <;> simp [equalAll, ih]

/-- What two trees have in common when they are of one kind and equal part by part, except that
their children may be related by any relation. -/
structure Similar (R : Expr → Expr → Prop) (e f : Expr) : Prop where
  kind : SameKind e f
  value : e.value.equal f.value = true
  consumes : e.consumes = f.consumes
  produces : e.produces = f.produces
  label : e.label.equal f.label = true
  children : List.Forall₂ R e.children f.children

theorem equal_iff {e f : Expr} :
    e.equal f = true ↔ Similar (fun e f => e.equal f = true) e f := by
  constructor
  · intro h
    cases e with
    | literal j v l =>
      cases f with
      | literal k w m =>
        simp only [equal, Bool.and_eq_true, beq_iff_eq] at h
        obtain ⟨⟨rfl, hv⟩, hl⟩ := h
        exact ⟨.literal, hv, rfl, rfl, hl, .nil⟩
      | _ => cases h
    | call n c p l es =>
      cases f with
      | call o d q m fs =>
        simp only [equal, Bool.and_eq_true, beq_iff_eq, equalAll_iff] at h
        obtain ⟨⟨⟨⟨rfl, rfl⟩, rfl⟩, hl⟩, hes⟩ := h
        exact ⟨.call, by simp [value, Value.equal_text], rfl, rfl, hl, hes⟩
      | _ => cases h
    | block c p l es =>
      cases f with
      | block d q m fs =>
        simp only [equal, Bool.and_eq_true, beq_iff_eq, equalAll_iff] at h
        obtain ⟨⟨⟨rfl, rfl⟩, hl⟩, hes⟩ := h
        exact ⟨.block, by simp [value, Value.equal_text], rfl, rfl, hl, hes⟩
      | _ => cases h
    | bare v c p l =>
      cases f with
      | bare w d q m =>
        simp only [equal, Bool.and_eq_true, beq_iff_eq] at h
        obtain ⟨⟨⟨hv, rfl⟩, rfl⟩, hl⟩ := h
        exact ⟨.bare, hv, rfl, rfl, hl, .nil⟩
      | _ => cases h
  · rintro ⟨hkind, hv, hc, hp, hl, hes⟩
    cases hkind with
    | literal => simp_all [equal, value, label]
    | call => simp_all [equal, value, label, consumes, produces, children, equalAll_iff,
        Value.equal_text]
    | block => simp_all [equal, label, consumes, produces, children, equalAll_iff]
    | bare => simp_all [equal, value, label, consumes, produces]

theorem totals_of_equal {es fs : List Expr}
    (h : List.Forall₂ (fun e f => e.equal f = true) es fs) :
    totalConsumes es = totalConsumes fs ∧ totalProduces es = totalProduces fs := by
  induction h with
  | nil => exact ⟨rfl, rfl⟩
  | cons he _ ih =>
    have hs := equal_iff.mp he
    simp only [totalConsumes, totalProduces, hs.consumes, hs.produces, ih.1, ih.2, and_self]

/-! ## Equality of dictionaries -/

theorem labelFields_eq (l : Value) :
    Record.labelFields l = if l.isNull then [] else [(Record.labelField, l)] := by
  cases l <;> rfl

theorem keys_of_sameKind {e f : Expr} (h : SameKind e f)
    (hnull : e.label.isNull = f.label.isNull) :
    e.fields.map Prod.fst = f.fields.map Prod.fst := by
  have hlabels : (Record.labelFields e.label).map Prod.fst =
      (Record.labelFields f.label).map Prod.fst := by
    rw [labelFields_eq, labelFields_eq, hnull]
    cases f.label.isNull <;> rfl
  have hchildren : (childFields e).map Prod.fst = (childFields f).map Prod.fst := by
    cases h <;> rfl
  simp [fields, hlabels, hchildren]

theorem sameKind_of_equalFields {e f : Expr}
    (h : Value.equalFields e.fields f.fields = true) : SameKind e f := by
  have htag : ("type", e.tagValue) ∈ e.fields := by simp [fields]
  obtain ⟨w, hw, heq⟩ := Value.exists_of_equalFields h htag
  rw [fields, Fields.get?_cons, if_pos rfl] at hw
  cases hw
  refine sameKind_of_tagValue ?_
  unfold tagValue at heq ⊢
  split at heq <;> split at heq
  · rw [Value.equal_text, beq_iff_eq] at heq
    rw [heq]
  · simp [Value.equal, Value.asNumber?] at heq
  · simp [Value.equal, Value.asNumber?] at heq
  · rfl

theorem equal_tagValue {e f : Expr} (h : SameKind e f) :
    e.tagValue.equal f.tagValue = true := by
  cases h with
  | @literal k => cases k <;> simp [tagValue, typeTag?, Value.equal_text]
  | call | block => simp [tagValue, typeTag?, Value.equal_text]
  | bare => simp [tagValue, typeTag?, Value.equal]

theorem isNull_label_of_length {e f : Expr} (hkind : SameKind e f)
    (hlength : e.fields.length = f.fields.length) : e.label.isNull = f.label.isNull := by
  have hchildren := length_childFields hkind
  rw [fields, fields, labelFields_eq, labelFields_eq] at hlength
  cases he : e.label.isNull <;> cases hf : f.label.isNull <;> simp_all

theorem forall₂_fields_iff {e f : Expr} (hkind : SameKind e f)
    (hnull : e.label.isNull = f.label.isNull) :
    List.Forall₂ (fun x y => x.2.equal y.2 = true) e.fields f.fields ↔
      e.value.equal f.value = true ∧ e.consumes = f.consumes ∧ e.produces = f.produces ∧
        e.label.equal f.label = true ∧
        List.Forall₂ (fun x y => x.2.equal y.2 = true) (childFields e) (childFields f) := by
  have htag := equal_tagValue hkind
  rw [fields, fields, labelFields_eq, labelFields_eq, hnull]
  cases hf : f.label.isNull with
  | true =>
    rw [hf] at hnull
    have hlabel : e.label.equal f.label = true := by
      rw [Value.eq_null_of_isNull hnull, Value.eq_null_of_isNull hf, Value.equal]
    simp [htag, hlabel, Value.equal_int]
  | false => simp [htag, Value.equal_int]

theorem forall₂_children_of_childFields {e f : Expr} (hkind : SameKind e f)
    (h : List.Forall₂ (fun x y => x.2.equal y.2 = true) (childFields e) (childFields f)) :
    List.Forall₂ (fun e f => e.toValue.equal f.toValue = true) e.children f.children := by
  cases hkind with
  | literal | bare => exact .nil
  | call | block =>
    rw [childFields, childFields, List.forall₂_cons, Value.equal, Value.equalItems_iff,
      toValues_eq_map, toValues_eq_map, List.forall₂_map_left_iff, List.forall₂_map_right_iff] at h
    exact h.1

theorem forall₂_childFields_of_children {e f : Expr} (hkind : SameKind e f)
    (h : List.Forall₂ (fun e f => e.toValue.equal f.toValue = true) e.children f.children)
    (hconsumes : totalConsumes e.children = totalConsumes f.children)
    (hproduces : totalProduces e.children = totalProduces f.children) :
    List.Forall₂ (fun x y => x.2.equal y.2 = true) (childFields e) (childFields f) := by
  have hitems : Value.equal (.list (toValues e.children)) (.list (toValues f.children)) = true := by
    rw [Value.equal, Value.equalItems_iff, toValues_eq_map, toValues_eq_map,
      List.forall₂_map_left_iff, List.forall₂_map_right_iff]
    exact h
  cases hkind with
  | literal | bare => exact .nil
  | call =>
    refine .cons hitems (.cons ?_ (.cons ?_ .nil))
    · rw [Value.equal_int, beq_iff_eq]
      exact hconsumes
    · rw [Value.equal_int, beq_iff_eq]
      exact hproduces
  | block => exact .cons hitems .nil

theorem similar_of_equal_toValue {e f : Expr} (h : e.toValue.equal f.toValue = true) :
    Similar (fun e f => e.toValue.equal f.toValue = true) e f := by
  rw [toValue_eq, toValue_eq] at h
  have hfields := h
  rw [Value.equal, Bool.and_eq_true, beq_iff_eq] at hfields
  have hkind := sameKind_of_equalFields hfields.2
  have hnull := isNull_label_of_length hkind hfields.1
  rw [Value.equal_dict_iff (keys_of_sameKind hkind hnull) (nodup_fields f),
    forall₂_fields_iff hkind hnull] at h
  obtain ⟨hvalue, hconsumes, hproduces, hlabel, hchildren⟩ := h
  exact ⟨hkind, hvalue, hconsumes, hproduces, hlabel,
    forall₂_children_of_childFields hkind hchildren⟩

theorem equal_toValue_of_similar {e f : Expr}
    (h : Similar (fun e f => e.toValue.equal f.toValue = true) e f)
    (hconsumes : totalConsumes e.children = totalConsumes f.children)
    (hproduces : totalProduces e.children = totalProduces f.children) :
    e.toValue.equal f.toValue = true := by
  have hnull := Value.isNull_of_equal h.label
  rw [toValue_eq, toValue_eq, Value.equal_dict_iff (keys_of_sameKind h.kind hnull) (nodup_fields f),
    forall₂_fields_iff h.kind hnull]
  exact ⟨h.value, h.consumes, h.produces, h.label,
    forall₂_childFields_of_children h.kind h.children hconsumes hproduces⟩

theorem Similar.congr {R S : Expr → Expr → Prop} {e f : Expr} (h : Similar R e f)
    (hRS : ∀ c ∈ e.children, ∀ d, R c d ↔ S c d) : Similar S e f :=
  ⟨h.kind, h.value, h.consumes, h.produces, h.label, (forall₂_congr_of_mem hRS).mp h.children⟩

theorem equal_iff_toValue {e f : Expr} :
    e.equal f = true ↔ e.toValue.equal f.toValue = true := by
  induction e using induction_on generalizing f with
  | h e ih =>
    constructor
    · intro h
      have hsimilar := equal_iff.mp h
      obtain ⟨hconsumes, hproduces⟩ := totals_of_equal hsimilar.children
      exact equal_toValue_of_similar (hsimilar.congr fun c hc d => ih c hc) hconsumes hproduces
    · intro h
      exact equal_iff.mpr ((similar_of_equal_toValue h).congr fun c hc d => (ih c hc).symm)

theorem kindName_of_equal {e f : Expr} (h : e.equal f = true) : e.kindName = f.kindName := by
  cases (equal_iff.mp h).kind with
  | @literal k => cases k <;> rfl
  | _ => rfl

end Expr

/-! ## How deep a comparison goes -/

namespace Value

theorem overlap_le_of_mem_fields {fs gs : List (String × Value)} (h : equalFields fs gs = true)
    {key : String} {v w : Value} (hv : (key, v) ∈ fs) (hw : Fields.get? key gs = some w) :
    v.overlap w ≤ overlapFields fs gs := by
  induction fs with
  | nil => cases hv
  | cons f fs ih =>
    obtain ⟨key', v'⟩ := f
    rw [equalFields, Bool.and_eq_true] at h
    rcases List.mem_cons.mp hv with hv | hv
    · cases hv
      simp only [overlapFields, hw]
      exact Nat.le_max_left _ _
    · cases hw' : Fields.get? key' gs with
      | none => simp [hw'] at h
      | some w' =>
        have heq : v'.equal w' = true := by simpa [hw'] using h.1
        simp only [overlapFields, hw', heq, if_true]
        exact (ih h.2 hv).trans (Nat.le_max_right _ _)

theorem overlap_le_items {vs ws : List Value}
    (h : List.Forall₂ (fun v w => v.equal w = true) vs ws) :
    List.Forall₂ (fun v w => v.equal w = true ∧ v.overlap w ≤ overlapItems vs ws) vs ws := by
  induction h with
  | nil => exact .nil
  | cons hv _ ih =>
    simp only [overlapItems, hv, if_true]
    refine .cons ⟨hv, Nat.le_max_left _ _⟩ (ih.imp fun _ _ h => ⟨h.1, ?_⟩)
    exact h.2.trans (Nat.le_max_right _ _)

end Value

namespace Expr

theorem overlap_field_lt {e f : Expr} (h : e.equal f = true) {key : String} {v w : Value}
    (hv : (key, v) ∈ e.fields) (hw : (key, w) ∈ f.fields) :
    v.overlap w < e.toValue.overlap f.toValue := by
  have hequal := equal_iff_toValue.mp h
  rw [toValue_eq, toValue_eq, Value.equal, Bool.and_eq_true, beq_iff_eq] at hequal
  rw [toValue_eq, toValue_eq, Value.overlap, if_pos hequal.1]
  exact Nat.lt_succ_of_le
    (Value.overlap_le_of_mem_fields hequal.2 hv (Fields.get?_of_mem (nodup_fields f) hw))

theorem overlap_label_lt {e f : Expr} (h : e.equal f = true) :
    e.label.overlap f.label < e.toValue.overlap f.toValue := by
  have hnull := Value.isNull_of_equal (equal_iff.mp h).label
  cases he : e.label.isNull with
  | true =>
    -- a label that is null is no field, but the type of a tree always is one
    have htag : ∀ x : Expr, ("type", x.tagValue) ∈ x.fields := fun x => by simp [fields]
    have hpos := overlap_field_lt h (htag e) (htag f)
    rw [Value.eq_null_of_isNull he]
    exact (Nat.zero_le _).trans_lt hpos
  | false =>
    have hlabel {x : Expr} (hx : x.label.isNull = false) :
        (Record.labelField, x.label) ∈ x.fields := by
      simp [fields, labelFields_eq, hx]
    exact overlap_field_lt h (hlabel he) (hlabel (hnull.symm.trans he))

theorem overlap_children_le {e f : Expr} (h : e.equal f = true) :
    List.Forall₂ (fun c d => c.equal d = true ∧
      c.toValue.overlap d.toValue ≤ e.toValue.overlap f.toValue) e.children f.children := by
  have hsimilar := equal_iff.mp h
  have hmem {x : Expr} (hx : x.isCall = true ∨ x.isBlock = true) :
      ("children", .list (toValues x.children)) ∈ x.fields := by
    cases x with
    | literal _ _ _ | bare _ _ _ _ => simp [isCall, isBlock] at hx
    | call _ _ _ _ _ | block _ _ _ _ => simp [fields, childFields, children]
  have hlist (he : e.isCall = true ∨ e.isBlock = true) (hf : f.isCall = true ∨ f.isBlock = true) :
      List.Forall₂ (fun c d => c.equal d = true ∧
        c.toValue.overlap d.toValue ≤ e.toValue.overlap f.toValue) e.children f.children := by
    have hlt := overlap_field_lt h (hmem he) (hmem hf)
    have hitems : List.Forall₂ (fun v w => v.equal w = true) (e.children.map toValue)
        (f.children.map toValue) := by
      rw [List.forall₂_map_left_iff, List.forall₂_map_right_iff]
      exact hsimilar.children.imp fun _ _ hc => equal_iff_toValue.mp hc
    rw [toValues_eq_map, toValues_eq_map, Value.overlap, if_pos hitems.length_eq] at hlt
    have hle := Value.overlap_le_items hitems
    rw [List.forall₂_map_left_iff, List.forall₂_map_right_iff] at hle
    exact hle.imp fun _ _ hc => ⟨equal_iff_toValue.mpr hc.1, by omega⟩
  cases hsimilar.kind with
  | literal | bare => exact .nil
  | call => exact hlist (.inl rfl) (.inl rfl)
  | block => exact hlist (.inr rfl) (.inr rfl)

end Expr
end StackForest
